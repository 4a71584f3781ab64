import Xv6.Vm.Directories

/-!
# The first pages

`main` frees the pages below four megabytes, takes the page tables of the
kernel and a stack for each further processor, and frees the pages above.
From then on the pages that are not free stay where they are.
-/

namespace Xv6.Vm

open Lib
open Fs (Bytes zeroes)

/-- The frames that `freerange` meets between two addresses. -/
def framesBetween (vstart vend : Nat) : List Nat :=
  List.range' ((pgroundup vstart - kernbase) / pgsize)
    ((vend - pgroundup vstart) / pgsize)

section Code

variable (k : Kernel)

/-- `kinit1(end, P2V(4*1024*1024))`. -/
def kinit1 : Code Unit :=
  freerange k (framesBetween k.stop (kernbase + 4 * 1024 * 1024))

/-- `kinit2(P2V(4*1024*1024), P2V(PHYSTOP))`. -/
def kinit2 : Code Unit :=
  freerange k
    (framesBetween (kernbase + 4 * 1024 * 1024) (kernbase + phystop))

/-- `kvmalloc`, which does not look whether `setupkvm` has failed. -/
def kvmalloc : Code Unit := do
  let dir ← setupkvm k
  match dir with
  | none => throw .nullDereference
  | some _ => pure ()

end Code

/-- `startothers`, for the number of further processors. -/
def startothers : Nat → Code Unit
  | 0 => pure ()
  | count + 1 => do
      let stack ← kalloc
      match stack with
      | none => throw .nullDereference
      | some _ => startothers count

/-- `main` up to `userinit`, as far as it takes pages. -/
def boot (k : Kernel) (others : Nat) : Code Unit := do
  kinit1 k
  kvmalloc k
  startothers others
  kinit2 k

/-- The free pages belong to the allocator, and none is there twice. -/
structure Booted (k : Kernel) (m : Memory) : Prop where
  nodup : m.freelist.Nodup
  inside : ∀ f ∈ m.freelist, k.Area f

/-- The pages that are taken at boot. -/
def fixedPages (k : Kernel) (free : List Nat) : Holder → Nat
  | .fixed f =>
      if k.stop ≤ f * pgsize + kernbase ∧ f * pgsize < phystop ∧ f ∉ free then
        f
      else 0
  | _ => 0

section Boot

variable {k : Kernel} {m : Memory}

theorem fixedPages_fixed {free : List Nat} {f : Nat} (area : k.Area f)
    (taken : f ∉ free) : fixedPages k free (.fixed f) = f :=
  if_pos ⟨area.1, area.2, taken⟩

theorem fixedPages_ne_zero {free : List Nat} {h : Holder}
    (some : fixedPages k free h ≠ 0) :
    h = .fixed (fixedPages k free h) ∧ k.Area (fixedPages k free h) ∧
      fixedPages k free h ∉ free := by
  cases h with
  | fixed f =>
      by_cases given : k.stop ≤ f * pgsize + kernbase ∧
          f * pgsize < phystop ∧ f ∉ free
      · rw [fixedPages_fixed ⟨given.1, given.2.1⟩ given.2.2]
        exact ⟨rfl, ⟨given.1, given.2.1⟩, given.2.2⟩
      · exact absurd (if_neg given) some
  | _ => exact absurd rfl some

/-- Without processes all pages that are not free are fixed. -/
theorem Booted.accounted (booted : Booted k m) :
    Accounted k ∅ (fixedPages k m.freelist) m := by
  have only : ∀ owner, address ∅ (fixedPages k m.freelist) m owner ≠ 0 →
      ∃ h, owner = .held h ∧ fixedPages k m.freelist h ≠ 0 := by
    intro owner owned
    cases owner with
    | held h => exact ⟨h, rfl, owned⟩
    | dir d => simp [address] at owned
    | table d i => simp [address] at owned
    | page d n => simp [address] at owned
  refine ⟨⟨⟨?_, ?_, ?_, ?_, ?_⟩, booted.nodup, booted.inside⟩, ?_, ?_, ?_⟩
  · intro area
    exact area_ne_zero area rfl
  · intro owner owned
    obtain ⟨h, rfl, some⟩ := only owner owned
    exact (fixedPages_ne_zero some).2.1
  · intro owner owned
    obtain ⟨h, rfl, some⟩ := only owner owned
    exact (fixedPages_ne_zero some).2.2
  · intro owner other owned same
    have owned' := owned
    rw [same] at owned'
    obtain ⟨h, rfl, some⟩ := only owner owned
    obtain ⟨h', rfl, some'⟩ := only other owned'
    rw [address_held, address_held] at same
    rw [(fixedPages_ne_zero some).1, (fixedPages_ne_zero some').1, same]
  · intro f area taken
    exact ⟨.held (.fixed f), fixedPages_fixed area taken⟩
  · simp
  · simp
  · simp

/-- The first frame that `kinit1` leaves to `kinit2`. -/
def firstHigh : Nat := 4 * 1024 * 1024 / pgsize

/-- The pages of a process get other contents. -/
theorem Accounted.fill {dirs : Finset Nat} {rest : Holder → Nat} {d : Nat}
    (live : d ∈ dirs) (content : Nat → Bytes) (count : Nat) :
    ∀ {m : Memory}, Accounted k dirs rest m → count ≤ userPages →
      (∀ n, n < count → present (pteAt m d n) = true) →
      ∃ m', Accounted k dirs rest m' ∧ m'.freelist = m.freelist ∧
        (∀ n, n < allPages → pteAt m' d n = pteAt m d n) ∧
        ∀ n, n < count → m'.pages (pageAt m d n) = content n := by
  induction count with
  | zero =>
      intro m a _ _
      exact ⟨m, a, rfl, fun _ _ => rfl, fun n wrong => by omega⟩
  | succ count induction =>
      intro m a inside mapped
      obtain ⟨m₁, a₁, free, entries, filled⟩ := induction a (by omega)
        fun n less => mapped n (by omega)
      have page : pageAt m₁ d count = pageAt m d count :=
        congrArg frameOf (entries count (lt_allPages (by omega)))
      have here : present (pteAt m₁ d count) = true := by
        rw [entries count (lt_allPages (by omega))]
        exact mapped count (by omega)
      have some := a₁.page d live count (by omega) (ne_zero_of_present here)
      have plain := a₁.plain_page live (by omega) some
      refine ⟨m₁.write (pageAt m₁ d count) (content count),
        a₁.write plain _, free, ?_, ?_⟩
      · intro n below
        rw [Accounted.pteAt_write plain _ live below, entries n below]
      · intro n less
        by_cases last : n = count
        · subst n
          rw [page]
          exact Function.update_self _ _ _
        · have other : pageAt m d n ≠ pageAt m₁ d count := by
            rw [page]
            intro same
            exact last (a.page_inj live live (by omega) (by omega)
              (mapped n (by omega)) same).2
          have kept : (m₁.write (pageAt m₁ d count) (content count)).pages
              (pageAt m d n) = m₁.pages (pageAt m d n) :=
            Function.update_of_ne other _ _
          rw [kept]
          exact filled n (by omega)

/-- A kernel of eight pages. -/
def smallKernel : Kernel where
  data := kernlink + 4 * pgsize
  stop := kernlink + 8 * pgsize
  aligned := by decide
  text := by decide
  ordered := by decide
  small := by decide

/-- All frames from four megabytes on. -/
def highFrames : List Nat := List.range' firstHigh 56320

theorem length_highFrames : highFrames.length = 56320 := List.length_range'

theorem booted_high (k : Kernel) (free : m.freelist = highFrames) :
    Booted k m := by
  constructor
  · rw [free]
    exact List.nodup_range'
  · intro f member
    have area := k.small
    rw [free] at member
    unfold highFrames firstHigh at member
    rw [List.mem_range'_1] at member
    unfold Kernel.Area
    unfold phystop kernbase pgsize at *
    omega

/-- There is a process of every size that leaves some pages free, with any
contents. -/
theorem exists_process (k : Kernel) (content : Nat → Bytes) (sz : Nat)
    (positive : 0 < sz) (fits : pageCount sz ≤ 50000) :
    ∃ d rest m, Accounted k {d} rest m ∧ rest .hand = 0 ∧
      WellMapped m d sz ∧
      (∀ n, n < pageCount sz → m.pages (pageAt m d n) = content n) ∧
      5000 ≤ m.freelist.length := by
  have small : sz < kernbase := by
    unfold pageCount at fits
    unfold pgsize at fits
    unfold kernbase
    omega
  have last := pageCount_le (le_of_lt small)
  obtain ⟨m₀, free₀⟩ : ∃ m₀ : Memory, m₀.freelist = highFrames :=
    ⟨⟨fun _ => zeroes, highFrames⟩, rfl⟩
  have booted := booted_high k free₀
  obtain ⟨dir, m₁, _, result⟩ := (setupkvm_spec booted.accounted).returns
  cases dir with
  | none =>
      have few := result.2.2
      rw [free₀, length_highFrames] at few
      unfold npdentries at few
      omega
  | some d =>
      have setup : Setup k ∅ (fixedPages k m₀.freelist) m₀ d m₁ := result
      have a₁ := setup.accounted
      have reserved := setup.reserve
      rw [free₀, length_highFrames] at reserved
      have live : d ∈ insert d (∅ : Finset Nat) := Finset.mem_insert_self d ∅
      have zero : pageCount 0 = 0 := rfl
      have absent : sz < kernbase → ∀ l, pageCount 0 ≤ l →
          l < pageCount sz → pteAt m₁ d l = 0 :=
        fun _ l _ below => setup.empty l (by omega)
      obtain ⟨sz', m₂, _, outcome⟩ :=
        (allocuvm_spec live rfl a₁ absent).returns
      rcases outcome with ⟨large, _⟩ | ⟨_, less, _⟩ | ⟨_, _, grown⟩
      · omega
      · omega
      · have a₂ := grown.accounted
        rcases grown.outcome with ⟨_, fresh, taken⟩ | ⟨_, _, few⟩
        · have here : ∀ n, n < pageCount sz →
              present (pteAt m₂ d n) = true := by
            intro n below
            obtain ⟨f, area, _, pte, _⟩ := fresh n (Nat.zero_le n) below
            rw [pte]
            exact present_entry area.lt (by decide)
          have tables := tables_le m₂ d
          have kernel : KernelHalf m₂ d :=
            setup.kernel.change grown.change fun l range => by omega
          obtain ⟨m₃, a₃, free, entries, filled⟩ :=
            a₂.fill live content (pageCount sz) last here
          have mapped : WellMapped m₂ d sz := by
            apply a₂.wellMapped live small here
            · intro n above inside
              rw [grown.change.pte n (lt_allPages inside) (by omega)]
              exact setup.empty n inside
            · intro n low high _
              exact kernel.system n low high
          refine ⟨d, fixedPages k m₀.freelist, m₃, ?_, rfl,
            mapped.congr entries, ?_, ?_⟩
          · rwa [← insert_empty_eq]
          · intro n below
            have page : pageAt m₃ d n = pageAt m₂ d n :=
              congrArg frameOf (entries n (lt_allPages (by omega)))
            rw [page]
            exact filled n below
          · unfold reserve at taken reserved
            unfold npdentries at tables
            rw [free]
            omega
        · unfold npdentries at few
          omega

end Boot

end Xv6.Vm
