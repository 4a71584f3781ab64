import Mathlib.Data.Finset.Union
import Mathlib.Data.Fintype.Card
import Mathlib.Data.List.FinRange
import Xv6.Lib.Run
import Xv6.Vm.SysExec

/-!
# The system calls that take and give back pages

The slots of the process table that are in use, the pipes, and the calls that
change them, one after the other.  A call that panics ends the run.  What is
in the kernel stacks and in the pipes is left out, since no call here reads
it.
-/

namespace Xv6.Vm

open Lib
open Fs (Bytes zeroes patch)

/-- The open ends of a pipe. -/
structure Ends where
  readopen : Bool
  writeopen : Bool
  deriving DecidableEq

/-- Clear `writeopen` or `readopen`. -/
def Ends.shut (ends : Ends) (writable : Bool) : Ends :=
  if writable then { ends with writeopen := false }
  else { ends with readopen := false }

/-- The processes by their slots, and the pipes by their pages. -/
structure Tables where
  procs : Fin nproc → Option Proc
  zombie : Fin nproc → Bool
  pipes : Nat → Option Ends

inductive Action where
  | userinit (init : List UInt8)
  | fork (i : Fin nproc)
  | exec (i : Fin nproc) (file : Option (List UInt8)) (uargv : UInt32)
  | growproc (i : Fin nproc) (n : Int)
  | exit (i : Fin nproc)
  | wait (child : Fin nproc)
  | pipealloc (first second : Bool)
  | pipeclose (q : Nat) (writable : Bool)
  | store (i : Fin nproc) (va : UInt32) (byte : UInt8)

/-- `inituvm`.  It does not look whether `kalloc` and `mappages` have failed,
which they do not with all of memory free; such a run ends here. -/
def inituvm (pgdir : Nat) (init : List UInt8) : Code Unit :=
  if init.length ≥ pgsize then throw (.panic "inituvm: more than a page")
  else do
    let mem ← kalloc
    match mem with
    | none => throw .nullDereference
    | some mem => do
        setPage mem zeroes
        let mapped ← mappages pgdir 0 pgsize mem (pteW ||| pteU)
        if mapped then
          setPage mem (patch zeroes 0 init.length fun j => init.getD j 0)
        else throw .nullDereference

/-- `userinit`. -/
def userinit (k : Kernel) (init : List UInt8) : Code Proc := do
  let kstack ← kalloc
  match kstack with
  | none => throw .nullDereference
  | some kstack => do
      let dir ← setupkvm k
      match dir with
      | none => throw (.panic "userinit: out of memory?")
      | some pgdir => do
          inituvm pgdir init
          pure ⟨pgdir, pgsize, kstack, 0, pgsize⟩

/-- A process stores a byte.  `false` is a page fault. -/
def storeByte (pgdir va : Nat) (byte : UInt8) : Code Bool := do
  let found ← walkpgdir pgdir va false
  match found with
  | none => pure false
  | some (t, i) => do
      let pte ← getEntry t i
      if present pte && user pte then do
        let m ← get
        setPage (frame pte)
          (Function.update (m.pages (frame pte)) (va % pgsize) byte)
        pure true
      else pure false

namespace Tables

/-- The process of a slot, unless it has exited. -/
def alive (t : Tables) (i : Fin nproc) : Option Proc :=
  if t.zombie i then none else t.procs i

/-- The search for an unused slot, in `allocproc`. -/
def unused (t : Tables) : Option (Fin nproc) :=
  (List.finRange nproc).find? fun i => (t.procs i).isNone

/-- Fill or empty a slot. -/
def put (t : Tables) (i : Fin nproc) (p : Option Proc) : Tables :=
  { t with
    procs := Function.update t.procs i p
    zombie := Function.update t.zombie i false }

/-- The process of a slot after a call that may have failed. -/
def adopt (t : Tables) (i : Fin nproc) : Option Proc → Bool × Tables
  | none => (false, t)
  | some p => (true, { t with procs := Function.update t.procs i (some p) })

def setPipe (t : Tables) (q : Nat) (ends : Option Ends) : Tables :=
  { t with pipes := Function.update t.pipes q ends }

/-- `pipealloc`, where `first` and `second` say whether `filealloc` finds a
file. -/
def pipealloc (t : Tables) (first second : Bool) : Code (Bool × Tables) :=
  if first && second then do
    let page ← kalloc
    pure (match page with
      | none => (false, t)
      | some q => (true, t.setPipe q (some ⟨true, true⟩)))
  else pure (false, t)

/-- `pipeclose`. -/
def pipeclose (k : Kernel) (t : Tables) (q : Nat) (ends : Ends)
    (writable : Bool) : Code (Bool × Tables) :=
  if (ends.shut writable).readopen || (ends.shut writable).writeopen then
    pure (true, t.setPipe q (some (ends.shut writable)))
  else do
    kfree k q
    pure (true, t.setPipe q none)

/-- The code of a call, if it can be made, with whether it succeeds. -/
def call (k : Kernel) (t : Tables) : Action → Option (Code (Bool × Tables))
  | .userinit init =>
      if ∀ i, t.procs i = none then
        some do
          let p ← Vm.userinit k init
          pure (true, t.put 0 (some p))
      else none
  | .fork i =>
      (t.alive i).map fun p =>
        match t.unused with
        | none => pure (false, t)
        | some j => do
            let child ← Vm.fork k p
            pure (match child with
              | none => (false, t)
              | some child => (true, t.put j (some child)))
  | .exec i file uargv =>
      (t.alive i).map fun p => do
        let result ← sysExec k p file uargv.toNat
        pure (t.adopt i result)
  | .growproc i n =>
      if -2 ^ 31 ≤ n ∧ n < 2 ^ 31 then
        (t.alive i).map fun p => do
          let result ← Vm.growproc k p n
          pure (t.adopt i result)
      else none
  | .exit i =>
      (t.alive i).map fun _ =>
        pure (true, { t with zombie := Function.update t.zombie i true })
  | .wait i =>
      if t.zombie i then
        (t.procs i).map fun p => do
          reap k p
          pure (true, t.put i none)
      else none
  | .pipealloc first second => some (t.pipealloc first second)
  | .pipeclose q writable =>
      (t.pipes q).map fun ends => pipeclose k t q ends writable
  | .store i va byte =>
      (t.alive i).map fun p => do
        let stored ← storeByte p.pgdir va.toNat byte
        pure (stored, t)

end Tables

/-- Memory and tables. -/
structure State where
  memory : Memory
  tables : Tables

/-- Every step is a call that returns; the label has its result. -/
def machine (k : Kernel) : System State (Action × Bool) where
  step s label s' := ∃ code, s.tables.call k label.1 = some code ∧
    code.run s.memory = .ok ((label.2, s'.tables), s'.memory)

/-! ## The account -/

namespace Tables

/-- The page directories of the processes. -/
def dirs (t : Tables) : Finset Nat :=
  Finset.univ.biUnion fun i => (t.procs i).elim ∅ fun p => {p.pgdir}

/-- The pages that the processes and pipes hold, and the pages that are not
in the free list at boot. -/
def holders (k : Kernel) (boot : List Nat) (t : Tables) : Holder → Nat
  | .hand => 0
  | .kstack i =>
      if less : i < nproc then (t.procs ⟨i, less⟩).elim 0 Proc.kstack else 0
  | .pipe q => (t.pipes q).elim 0 fun _ => q
  | .fixed f => fixedPages k boot (.fixed f)

variable {k : Kernel} {boot : List Nat} {t : Tables} {i j : Fin nproc}
  {p : Proc}

theorem put_procs (t : Tables) (i : Fin nproc) (p : Option Proc) :
    (t.put i p).procs = Function.update t.procs i p := rfl

theorem put_pipes (t : Tables) (i : Fin nproc) (p : Option Proc) :
    (t.put i p).pipes = t.pipes := rfl

theorem adopt_procs (t : Tables) (i : Fin nproc) (p : Proc) :
    (t.adopt i (some p)).2.procs = Function.update t.procs i (some p) := rfl

theorem adopt_pipes (t : Tables) (i : Fin nproc) (p : Proc) :
    (t.adopt i (some p)).2.pipes = t.pipes := rfl

theorem mem_dirs {d : Nat} :
    d ∈ t.dirs ↔ ∃ i p, t.procs i = some p ∧ p.pgdir = d := by
  unfold dirs
  rw [Finset.mem_biUnion]
  constructor
  · rintro ⟨i, _, member⟩
    cases found : t.procs i with
    | none => simp [found] at member
    | some p =>
        rw [found] at member
        exact ⟨i, p, found, (Finset.mem_singleton.mp member).symm⟩
  · rintro ⟨i, p, found, same⟩
    refine ⟨i, Finset.mem_univ i, ?_⟩
    rw [found]
    exact Finset.mem_singleton.mpr same.symm

theorem pgdir_mem (found : t.procs i = some p) : p.pgdir ∈ t.dirs :=
  mem_dirs.mpr ⟨i, p, found, rfl⟩

theorem holders_kstack (i : Fin nproc) :
    t.holders k boot (.kstack i) = (t.procs i).elim 0 Proc.kstack :=
  dif_pos i.isLt

theorem holders_of_procs (found : t.procs i = some p) :
    t.holders k boot (.kstack i) = p.kstack := by
  rw [holders_kstack, found]
  rfl

theorem holders_of_empty (empty : t.procs i = none) :
    t.holders k boot (.kstack i) = 0 := by
  rw [holders_kstack, empty]
  rfl

theorem procs_of_alive (alive : t.alive i = some p) : t.procs i = some p := by
  unfold Tables.alive at alive
  split at alive
  · cases alive
  · exact alive

theorem procs_unused (free : t.unused = some j) : t.procs j = none := by
  have found := List.find?_some free
  exact Option.isNone_iff_eq_none.mp found

/-- The process of one slot changes. -/
theorem holders_update {t' : Tables} (p : Option Proc)
    (procs : t'.procs = Function.update t.procs i p)
    (pipes : t'.pipes = t.pipes) :
    t'.holders k boot = Function.update (t.holders k boot) (.kstack i)
      (p.elim 0 Proc.kstack) := by
  funext h
  cases h with
  | hand => rfl
  | fixed f => rfl
  | pipe q =>
      rw [Function.update_of_ne (by simp)]
      unfold holders
      dsimp only
      rw [pipes]
  | kstack l =>
      by_cases same : l = i
      · subst l
        rw [Function.update_self, holders_kstack, procs, Function.update_self]
      · rw [Function.update_of_ne (by simpa using same)]
        unfold holders
        dsimp only
        by_cases less : l < nproc
        · have other : (⟨l, less⟩ : Fin nproc) ≠ i := by
            intro equal
            exact same (congrArg Fin.val equal)
          rw [dif_pos less, dif_pos less, procs, Function.update_of_ne other]
        · rw [dif_neg less, dif_neg less]

theorem holders_setPipe {q : Nat} (ends : Option Ends) :
    (t.setPipe q ends).holders k boot =
      Function.update (t.holders k boot) (.pipe q)
        (ends.elim 0 fun _ => q) := by
  funext h
  cases h with
  | hand => rfl
  | fixed f => rfl
  | kstack l => rfl
  | pipe r =>
      by_cases same : r = q
      · subst r
        rw [Function.update_self]
        unfold holders setPipe
        dsimp only
        rw [Function.update_self]
      · rw [Function.update_of_ne (by simpa using same)]
        unfold holders setPipe
        dsimp only
        rw [Function.update_of_ne same]

/-- The directories behind a change of one slot. -/
theorem mem_dirs_update {t' : Tables} {p : Option Proc} {d : Nat}
    (procs : t'.procs = Function.update t.procs i p) :
    d ∈ t'.dirs ↔ (∃ q, p = some q ∧ q.pgdir = d) ∨
      ∃ j q, j ≠ i ∧ t.procs j = some q ∧ q.pgdir = d := by
  rw [mem_dirs, procs]
  constructor
  · rintro ⟨j, q, found, same⟩
    by_cases here : j = i
    · subst j
      rw [Function.update_self] at found
      exact Or.inl ⟨q, found, same⟩
    · rw [Function.update_of_ne here] at found
      exact Or.inr ⟨j, q, here, found, same⟩
  · rintro (⟨q, found, same⟩ | ⟨j, q, other, found, same⟩)
    · exact ⟨i, q, by rw [Function.update_self, found], same⟩
    · exact ⟨j, q, by rw [Function.update_of_ne other, found], same⟩

end Tables

end Xv6.Vm
