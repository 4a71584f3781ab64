import Xv6.Vm.Account

/-!
# The checks of system call arguments

The checks of `kernel/syscall.c` add before they compare.  Sizes stay below
`KERNBASE` in every run, so that the sums do not wrap and each verdict is the
one of the integers.
-/

namespace Xv6.Vm

open Lib

/-- The address of the argument `n`. -/
def argumentAddress (p : Proc) (n : Int) : Nat :=
  (((p.esp : Int) + 4 + 4 * n) % 2 ^ 32).toNat

theorem argumentAddress_lt (p : Proc) (n : Int) :
    argumentAddress p n < 2 ^ 32 := by
  unfold argumentAddress
  omega

/-- A pointer argument to a block of memory of the process. -/
structure PointerArgument (byte : Nat → UInt8) (p : Proc) (n size : Int)
    (pointer : Nat) : Prop where
  argument : argumentAddress p n + 4 ≤ p.sz
  value : pointer = wordAt byte (argumentAddress p n)
  nonnegative : 0 ≤ size
  start : pointer < p.sz
  stop : (pointer : Int) + size ≤ p.sz

/-- A string of the process, or none if there is no zero from its address
on. -/
def StringVerdict (byte : Nat → UInt8) (p : Proc) (addr : Nat) :
    Option (List UInt8) → Prop
  | some string => addr + (string.length + 1) ≤ p.sz ∧ 0 ∉ string ∧
      StringAt byte addr string
  | none => ∀ va, addr ≤ va → va < p.sz → byte va ≠ 0

/-- The verdicts on the arguments of a process.  The only fault is a load from
a page below the size of the process that is not mapped. -/
structure Validated (m : Memory) (p : Proc) : Prop where
  small : p.sz < kernbase
  fetchint : ∀ addr : UInt32, wp (fetchint p addr.toNat)
    (fun result m' => m' = m ∧ (result.isSome ↔ addr.toNat + 4 ≤ p.sz))
    (fun _ => Gap m p.pgdir addr.toNat p.sz) m
  argptr : ∀ n size : Int, -2 ^ 31 ≤ size → size < 2 ^ 31 →
    wp (argptr p n size)
      (fun result m' => m' = m ∧ ∀ pointer, result = some pointer ↔
        PointerArgument (userByte m p.pgdir p.sz) p n size pointer)
      (fun _ => Gap m p.pgdir (argumentAddress p n) p.sz) m
  fetchstr : ∀ addr : UInt32, wp (fetchstr p addr.toNat)
    (fun result m' => m' = m ∧
      StringVerdict (userByte m p.pgdir p.sz) p addr.toNat result)
    (fun _ => Gap m p.pgdir addr.toNat p.sz) m
  argstr : ∀ n : Int, wp (argstr p n)
    (fun result m' => m' = m ∧
      if argumentAddress p n + 4 ≤ p.sz then
        StringVerdict (userByte m p.pgdir p.sz) p
          (wordAt (userByte m p.pgdir p.sz) (argumentAddress p n)) result
      else result = none)
    (fun _ => Gap m p.pgdir (argumentAddress p n) p.sz ∨
      Gap m p.pgdir (wordAt (userByte m p.pgdir p.sz) (argumentAddress p n))
        p.sz) m

section Checks

variable {k : Kernel} {dirs : Finset Nat} {rest : Holder → Nat} {m : Memory}
  {p : Proc} (a : Accounted k dirs rest m) (live : p.pgdir ∈ dirs)
  (small : p.sz < kernbase)

include a live small

theorem argint_spec (n : Int) :
    wp (argint p n)
      (fun result m' => m' = m ∧ result =
        if argumentAddress p n + 4 ≤ p.sz then
          some (wordAt (userByte m p.pgdir p.sz) (argumentAddress p n))
        else none)
      (fun _ => Gap m p.pgdir (argumentAddress p n) p.sz) m := by
  apply (fetchint_spec a live small (argumentAddress_lt p n)).mono
    (fun _ _ => id)
  intro _ ⟨le, gap⟩
  exact gap.wider le

/-- `(uint)i + size` does not wrap for a pointer below the size. -/
theorem argptr_spec (n size : Int) (upper : size < 2 ^ 31) :
    wp (argptr p n size)
      (fun result m' => m' = m ∧ ∀ pointer, result = some pointer ↔
        PointerArgument (userByte m p.pgdir p.sz) p n size pointer)
      (fun _ => Gap m p.pgdir (argumentAddress p n) p.sz) m := by
  unfold argptr
  apply wp.bind (argint_spec a live small n)
  intro i m' ⟨same, value⟩
  subst m'
  by_cases inside : argumentAddress p n + 4 ≤ p.sz
  · rw [if_pos inside] at value
    subst i
    dsimp only
    generalize found :
      wordAt (userByte m p.pgdir p.sz) (argumentAddress p n) = i
    by_cases refused : size < 0 ∨ i ≥ p.sz ∨ uintAdd i size.toNat > p.sz
    · rw [if_pos refused, wp_pure]
      refine ⟨rfl, fun pointer => ⟨nofun, ?_⟩⟩
      intro accepted
      exfalso
      have pointer := accepted.value
      have nonnegative := accepted.nonnegative
      have start := accepted.start
      have stop := accepted.stop
      rw [found] at pointer
      unfold uintAdd at refused
      unfold kernbase at small
      omega
    · rw [if_neg refused, wp_pure]
      refine ⟨rfl, fun pointer => ⟨?_, ?_⟩⟩
      · intro equal
        cases equal
        unfold uintAdd at refused
        unfold kernbase at small
        exact ⟨inside, found.symm, by omega, by omega, by omega⟩
      · intro accepted
        rw [accepted.value, found]
  · rw [if_neg inside] at value
    subst i
    dsimp only
    rw [wp_pure]
    exact ⟨rfl, fun pointer =>
      ⟨nofun, fun accepted => (inside accepted.argument).elim⟩⟩

theorem fetchstr_spec (addr : Nat) :
    wp (fetchstr p addr)
      (fun result m' => m' = m ∧
        StringVerdict (userByte m p.pgdir p.sz) p addr result)
      (fun _ => Gap m p.pgdir addr p.sz) m := by
  unfold fetchstr
  by_cases outside : addr ≥ p.sz
  · rw [if_pos outside, wp_pure]
    exact ⟨rfl, fun va above below => by omega⟩
  · rw [if_neg outside]
    have last : addr + (p.sz - addr) = p.sz := by omega
    apply (fetchstrLoop_spec a live small (p.sz - addr) (by omega)).mono
    · intro result m' ⟨same, verdict⟩
      refine ⟨same, ?_⟩
      cases result with
      | none =>
          intro va above below
          have there := verdict (va - addr) (by omega)
          rwa [Nat.add_sub_cancel' above] at there
      | some string => exact ⟨by omega, verdict.2⟩
    · intro _ gap
      rwa [last] at gap

theorem argstr_spec (n : Int) :
    wp (argstr p n)
      (fun result m' => m' = m ∧
        if argumentAddress p n + 4 ≤ p.sz then
          StringVerdict (userByte m p.pgdir p.sz) p
            (wordAt (userByte m p.pgdir p.sz) (argumentAddress p n)) result
        else result = none)
      (fun _ => Gap m p.pgdir (argumentAddress p n) p.sz ∨
        Gap m p.pgdir
          (wordAt (userByte m p.pgdir p.sz) (argumentAddress p n)) p.sz)
      m := by
  unfold argstr
  apply wp.bind ((argint_spec a live small n).mono (fun _ _ => id)
    fun _ => Or.inl)
  intro addr m' ⟨same, value⟩
  subst m'
  by_cases inside : argumentAddress p n + 4 ≤ p.sz
  · rw [if_pos inside] at value
    subst addr
    simp only [if_pos inside]
    exact (fetchstr_spec a live small _).mono (fun _ _ => id) fun _ => Or.inr
  · rw [if_neg inside] at value
    subst addr
    simp only [if_neg inside]
    rw [wp_pure]
    exact ⟨rfl, rfl⟩

theorem validated : Validated m p where
  small := small
  fetchint addr := by
    apply (fetchint_spec a live small addr.toNat_lt).mono
    · intro result m' ⟨same, value⟩
      refine ⟨same, ?_⟩
      rw [value]
      split
      · rename_i inside
        simpa using inside
      · rename_i outside
        simpa using outside
    · intro _ ⟨le, gap⟩
      exact gap.wider le
  argptr n size _ upper := argptr_spec a live small n size upper
  fetchstr addr := fetchstr_spec a live small addr.toNat
  argstr n := argstr_spec a live small n

end Checks

/-- In every run, whatever `esp` a process comes with, the checks accept
exactly the arguments that lie in its memory. -/
theorem validated_of_run {k : Kernel} {start s : State}
    {history : History State (Action × Bool)} (started : Start k start)
    (run : Run (machine k) start history s) {i : Fin nproc} {p : Proc}
    (found : s.tables.procs i = some p) (esp : UInt32) :
    Validated s.memory { p with esp := esp.toNat } := by
  have sound := sound_of_run started run
  exact validated (p := { p with esp := esp.toNat }) sound.accounted
    (Tables.pgdir_mem (p := p) found) (sound.tidy found).small

/-- The arguments of the first process are checked. -/
theorem validated_userinit :
    ∃ start s p, Run (machine smallKernel) start
        [(start, (.userinit [], true))] s ∧
      s.tables.procs 0 = some p ∧
      ∀ esp : UInt32, Validated s.memory { p with esp := esp.toNat } := by
  obtain ⟨s, p, run, tables, _⟩ :=
    exists_userinit (start_highStart smallKernel) length_highStart
  have found : s.tables.procs 0 = some p := by
    rw [tables, Tables.put_procs, Function.update_self]
  exact ⟨_, s, p, run, found, fun esp =>
    validated_of_run (start_highStart smallKernel) run found esp⟩

end Xv6.Vm
