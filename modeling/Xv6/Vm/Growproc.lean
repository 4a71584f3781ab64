import Xv6.Vm.Fork

/-!
# `growproc`

The size that `growproc` computes is unsigned.  An argument below the negated
size wraps to a size above the present one, which `deallocuvm` ignores, and
the size zero is what `deallocuvm` returns for success and `growproc` takes for
failure.  Everywhere else `growproc` changes the size by exactly its argument,
or changes nothing.
-/

namespace Xv6.Vm

open Lib
open Fs (Bytes zeroes)

/-- The pages of an address space that two sizes differ in. -/
def Between (sz sz' n : Nat) : Prop :=
  (pageCount sz ≤ n ∧ n < pageCount sz') ∨
    (pageCount sz' ≤ n ∧ n < pageCount sz)

/-- An address space has gone from one size to another. -/
structure Resized (k : Kernel) (dirs : Finset Nat) (rest : Holder → Nat)
    (d sz sz' : Nat) (m m' : Memory) : Prop where
  change : Change dirs rest d (Between sz sz') m m'
  fresh : ∀ n, pageCount sz ≤ n → n < pageCount sz' → Fresh k m' d n
  gone : ∀ n, pageCount sz' ≤ n → n < pageCount sz → pteAt m' d n = 0

/-- The mapping of an address space and its contents have not changed. -/
structure Kept (m m' : Memory) (d : Nat) : Prop where
  pte : ∀ n, n < allPages → pteAt m' d n = pteAt m d n
  content : ∀ n, n < userPages → pageAt m d n ≠ 0 →
    m'.pages (pageAt m d n) = m.pages (pageAt m d n)

protected theorem Kept.refl (m : Memory) (d : Nat) : Kept m m d :=
  ⟨fun _ _ => rfl, fun _ _ _ => rfl⟩

/-- The outcome of `growproc`. -/
inductive Growth (k : Kernel) (dirs : Finset Nat) (rest : Holder → Nat)
    (p : Proc) (n : Int) (m : Memory) : Option Proc → Memory → Prop where
  | exact {sz : Nat} {m' : Memory} (number : (sz : Int) = p.sz + n)
      (proper : 0 ≤ n ∨ 0 < sz) (small : sz < kernbase)
      (resized : Resized k dirs rest p.pgdir p.sz sz m m') :
      Growth k dirs rest p n m (some { p with sz := sz }) m'
  | refused {m' : Memory} (reason : 0 < n ∨ p.sz = 0)
      (kept : Kept m m' p.pgdir) : Growth k dirs rest p n m none m'
  | ignored {m' : Memory} (negative : (p.sz : Int) + n < 0)
      (nonempty : 0 < p.sz) (kept : Kept m m' p.pgdir) :
      Growth k dirs rest p n m (some p) m'
  | emptied {m' : Memory} (zero : (p.sz : Int) + n = 0) (nonempty : 0 < p.sz)
      (resized : Resized k dirs rest p.pgdir p.sz 0 m m') :
      Growth k dirs rest p n m none m'

section Growproc

variable {k : Kernel} {dirs : Finset Nat} {rest : Holder → Nat} {p : Proc}
  {m : Memory} {n : Int}

theorem Resized.refl (d sz : Nat) : Resized k dirs rest d sz sz m m where
  change := Change.refl m
  fresh n first second := by omega
  gone n first second := by omega

/-- A failed `allocuvm` has changed nothing. -/
theorem Grown.kept {d oldsz newsz sz : Nat} {m' : Memory}
    (grown : Grown k dirs rest d oldsz newsz m sz m') (live : d ∈ dirs)
    (before : ∀ l, pageCount oldsz ≤ l → l < pageCount newsz →
      pteAt m d l = 0)
    (after : ∀ l, pageCount oldsz ≤ l → l < pageCount newsz →
      pteAt m' d l = 0) : Kept m m' d := by
  constructor
  · intro l inside
    by_cases range : pageCount oldsz ≤ l ∧ l < pageCount newsz
    · rw [before l range.1 range.2, after l range.1 range.2]
    · exact grown.change.pte l inside range
  · intro l inside some
    by_cases range : pageCount oldsz ≤ l ∧ l < pageCount newsz
    · unfold pageAt at some
      rw [before l range.1 range.2] at some
      exact absurd rfl some
    · exact grown.change.content live inside range some

theorem growproc_spec (a : Accounted k dirs rest m) (live : p.pgdir ∈ dirs)
    (nothing : rest .hand = 0) (small : p.sz < kernbase)
    (absent : ∀ l, pageCount p.sz ≤ l → l < userPages →
      pteAt m p.pgdir l = 0)
    (lower : -2 ^ 31 ≤ n) (upper : n < 2 ^ 31) :
    wp (growproc k p n)
      (fun result m' => Accounted k dirs rest m' ∧
        (∀ e ∈ dirs, e ≠ p.pgdir → Same m m' e) ∧
        (KernelHalf m p.pgdir → KernelHalf m' p.pgdir) ∧
        Growth k dirs rest p n m result m')
      (fun _ => False) m := by
  unfold kernbase at small
  unfold growproc
  dsimp only
  by_cases positive : n > 0
  · have newsz : (((p.sz : Int) + n) % 2 ^ 32).toNat = p.sz + n.toNat := by
      omega
    rw [if_pos positive, newsz]
    have absent' : p.sz + n.toNat < kernbase → ∀ l, pageCount p.sz ≤ l →
        l < pageCount (p.sz + n.toNat) → pteAt m p.pgdir l = 0 := by
      intro low l first second
      have last := pageCount_le (le_of_lt low)
      exact absent l first (by omega)
    apply wp.bind (allocuvm_spec live nothing a absent')
    intro sz m' outcome
    rw [wp_pure]
    rcases outcome with ⟨_, zero, same⟩ | ⟨_, shrinks, _⟩ | ⟨low, grows, grown⟩
    · subst m'
      rw [if_pos zero]
      exact ⟨a, fun e _ _ => Same.refl m e, id,
        Growth.refused (Or.inl positive) (Kept.refl m p.pgdir)⟩
    · omega
    · have last := pageCount_le (le_of_lt low)
      refine ⟨grown.accounted,
        fun e live' other => grown.change.same live' a other,
        fun kernel => kernel.change grown.change fun l range => by omega, ?_⟩
      rcases grown.outcome with ⟨equal, new, _⟩ | ⟨zero, none, _⟩
      · rw [if_neg (by omega), equal]
        refine Growth.exact (by omega) (by omega) low ⟨?_, new, ?_⟩
        · exact grown.change.mono fun l range => Or.inl range
        · intro l first second
          have ordered := pageCount_mono grows
          omega
      · rw [if_pos zero]
        exact Growth.refused (Or.inl positive)
          (grown.kept live (absent' low) none)
  · rw [if_neg positive]
    by_cases negative : n < 0
    · rw [if_pos negative]
      apply wp.bind (deallocuvm_spec live (by unfold kernbase; omega) a)
      intro sz m' ⟨number, a', change, zero, _⟩
      rw [wp_pure]
      have last : pageCount p.sz ≤ userPages :=
        pageCount_le (by unfold kernbase; omega)
      refine ⟨a', fun e live' other => change.same live' a other,
        fun kernel => kernel.change change fun l range => by omega, ?_⟩
      by_cases wraps : (p.sz : Int) + n < 0
      · have larger : (((p.sz : Int) + n) % 2 ^ 32).toNat ≥ p.sz := by omega
        have empty := pageCount_mono larger
        have kept : Kept m m' p.pgdir := by
          constructor
          · intro l inside
            exact change.pte l inside (by omega)
          · intro l inside
            exact change.content live inside (by omega)
        rw [if_pos larger] at number
        rw [number]
        by_cases zero : p.sz = 0
        · rw [if_pos zero]
          exact Growth.refused (Or.inr zero) kept
        · rw [if_neg zero]
          exact Growth.ignored wraps (by omega) kept
      · have newsz : (((p.sz : Int) + n) % 2 ^ 32).toNat =
            ((p.sz : Int) + n).toNat := by omega
        rw [newsz] at number change zero
        rw [if_neg (by omega)] at number
        have ordered : pageCount ((p.sz : Int) + n).toNat ≤ pageCount p.sz :=
          pageCount_mono (by omega)
        have resized : Resized k dirs rest p.pgdir p.sz
            ((p.sz : Int) + n).toNat m m' :=
          ⟨change.mono fun l range => Or.inr range,
            fun l first second => by omega, zero⟩
        rw [number]
        by_cases zero : ((p.sz : Int) + n).toNat = 0
        · rw [if_pos zero]
          rw [zero] at resized
          exact Growth.emptied (by omega) (by omega) resized
        · rw [if_neg zero]
          exact Growth.exact (by omega) (by omega)
            (by unfold kernbase; omega) resized
    · rw [if_neg negative, wp_pure]
      have zero : n = 0 := by omega
      refine ⟨a, fun e _ _ => Same.refl m e, id, ?_⟩
      have number : (p.sz : Int) = p.sz + n := by omega
      exact Growth.exact number (by omega) (by unfold kernbase; omega)
        (Resized.refl p.pgdir p.sz)

/-! ## Exact or atomic -/

/-- `growproc` changes the size by its argument and maps the pages of the new
size, or fails and changes nothing. -/
def ExactOrAtomic (k : Kernel) (p : Proc) (n : Int) (m : Memory) : Prop :=
  match (growproc k p n).run m with
  | .ok (some p', m') => (p'.sz : Int) = p.sz + n ∧ p'.pgdir = p.pgdir ∧
      ∀ l, l < userPages →
        (present (pteAt m' p.pgdir l) = true ↔ l < pageCount p'.sz)
  | .ok (none, m') => Kept m m' p.pgdir
  | .error _ => False

theorem Resized.present_iff {sz sz' : Nat} {d : Nat} {m' : Memory}
    (resized : Resized k dirs rest d sz sz' m m') (mapped : WellMapped m d sz)
    {l : Nat} (inside : l < userPages) :
    present (pteAt m' d l) = true ↔ l < pageCount sz' := by
  by_cases below : l < pageCount sz'
  · refine iff_of_true ?_ below
    by_cases old : l < pageCount sz
    · rw [resized.change.pte l (lt_allPages inside)
        (by unfold Between; omega)]
      exact mapped.mapped l old
    · obtain ⟨f, area, _, pte, _⟩ := resized.fresh l (by omega) below
      rw [pte]
      exact present_entry area.lt (by decide)
  · refine iff_of_false ?_ below
    by_cases old : l < pageCount sz
    · rw [resized.gone l (by omega) old]
      decide
    · rw [resized.change.pte l (lt_allPages inside)
        (by unfold Between; omega), mapped.absent l (by omega) inside]
      decide

theorem Growth.exactOrAtomic_iff {result : Option Proc} {m' : Memory}
    (run : (growproc k p n).run m = .ok (result, m'))
    (growth : Growth k dirs rest p n m result m')
    (mapped : WellMapped m p.pgdir p.sz) :
    ExactOrAtomic k p n m ↔ 0 ≤ n ∨ 0 < p.sz + n ∨ p.sz = 0 := by
  unfold ExactOrAtomic
  rw [run]
  cases growth with
  | exact number proper small resized =>
      exact iff_of_true ⟨number, rfl, fun l inside =>
        resized.present_iff mapped inside⟩ (by omega)
  | refused reason kept => exact iff_of_true kept (by omega)
  | ignored negative nonempty kept =>
      refine iff_of_false ?_ (by omega)
      intro ⟨number, _⟩
      omega
  | emptied zero nonempty resized =>
      refine iff_of_false ?_ (by omega)
      intro kept
      have first : 0 < pageCount p.sz := lt_pageCount.mpr (by omega)
      have here := mapped.mapped 0 first
      rw [← kept.pte 0 (by decide),
        resized.gone 0 (Nat.zero_le _) first] at here
      cases here

/-- The run of `growproc` for a process that is well mapped. -/
theorem WellMapped.growproc (mapped : WellMapped m p.pgdir p.sz)
    (a : Accounted k dirs rest m) (live : p.pgdir ∈ dirs)
    (nothing : rest .hand = 0) (lower : -2 ^ 31 ≤ n) (upper : n < 2 ^ 31) :
    ∃ result m', (Vm.growproc k p n).run m = .ok (result, m') ∧
      Growth k dirs rest p n m result m' := by
  obtain ⟨result, m', run, _, _, _, growth⟩ := (growproc_spec a live nothing
    mapped.small (fun l above inside => mapped.pteAt_eq_zero a live above
      inside) lower upper).returns
  exact ⟨result, m', run, growth⟩

/-- `growproc` is exact or atomic unless its argument takes away the whole
size or more. -/
theorem growproc_exactOrAtomic_iff (a : Accounted k dirs rest m)
    (live : p.pgdir ∈ dirs) (nothing : rest .hand = 0)
    (mapped : WellMapped m p.pgdir p.sz) (lower : -2 ^ 31 ≤ n)
    (upper : n < 2 ^ 31) :
    ExactOrAtomic k p n m ↔ 0 ≤ n ∨ 0 < p.sz + n ∨ p.sz = 0 := by
  obtain ⟨result, m', run, growth⟩ :=
    mapped.growproc a live nothing lower upper
  exact growth.exactOrAtomic_iff run mapped

/-- A process of two pages grows by one byte. -/
theorem growproc_exactOrAtomic_one :
    ∃ d rest m, Accounted smallKernel {d} rest m ∧ WellMapped m d 8192 ∧
      ExactOrAtomic smallKernel ⟨d, 8192, 0, 0, 0⟩ 1 m := by
  obtain ⟨d, rest, m, a, nothing, mapped, _, _⟩ :=
    exists_process smallKernel (fun _ => zeroes) 8192 (by decide) (by decide)
  refine ⟨d, rest, m, a, mapped, ?_⟩
  apply (growproc_exactOrAtomic_iff a (p := ⟨d, 8192, 0, 0, 0⟩)
    (Finset.mem_singleton_self d) nothing mapped (by decide)
    (by decide)).mpr
  exact Or.inl (by decide)

/-- A process of two pages gives up all its memory: the pages are gone, and
`growproc` fails. -/
theorem growproc_not_atomic :
    ∃ d rest m m', Accounted smallKernel {d} rest m ∧ WellMapped m d 8192 ∧
      (growproc smallKernel ⟨d, 8192, 0, 0, 0⟩ (-8192)).run m =
        .ok (none, m') ∧
      present (pteAt m d 0) = true ∧ present (pteAt m' d 0) = false ∧
      ¬ ExactOrAtomic smallKernel ⟨d, 8192, 0, 0, 0⟩ (-8192) m := by
  obtain ⟨d, rest, m, a, nothing, mapped, _, _⟩ :=
    exists_process smallKernel (fun _ => zeroes) 8192 (by decide) (by decide)
  obtain ⟨result, m', run, growth⟩ :=
    WellMapped.growproc (p := ⟨d, 8192, 0, 0, 0⟩) (n := -8192) mapped a
      (Finset.mem_singleton_self d) nothing (by decide) (by decide)
  have first : 0 < pageCount 8192 := by decide
  have divergent := growth.exactOrAtomic_iff run mapped
  cases growth with
  | exact number proper small resized =>
      dsimp only at number
      omega
  | refused reason kept =>
      dsimp only at reason
      omega
  | ignored negative nonempty kept =>
      dsimp only at negative
      omega
  | emptied zero nonempty resized =>
      refine ⟨d, rest, m, m', a, mapped, run, mapped.mapped 0 first, ?_, ?_⟩
      · rw [resized.gone 0 (Nat.zero_le _) first]
        decide
      · rw [divergent]
        dsimp only
        omega

end Growproc

end Xv6.Vm
