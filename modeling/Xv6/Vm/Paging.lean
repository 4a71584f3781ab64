import Xv6.Fs.Format
import Xv6.Lib.Program

/-!
# Pages and page tables, `kernel/kalloc.c` and `kernel/vm.c`

A page is named by the number of its frame, that is, by its physical address
divided by `PGSIZE`, and an address is a number below `2 ^ 32`.  Page
directories and page tables are pages like any other, and an entry is a word
of such a page.  `freelist` lists the free pages; the links between them,
which the kernel keeps in the pages themselves, are left out.
-/

namespace Xv6.Vm

open Lib
open Fs (Bytes word putWord zeroes patch)

/-- `PGSIZE`. -/
def pgsize : Nat := 4096

/-- `NPDENTRIES` and `NPTENTRIES`. -/
def npdentries : Nat := 1024

/-- `EXTMEM`. -/
def extmem : Nat := 0x100000

/-- `PHYSTOP`. -/
def phystop : Nat := 0xE000000

/-- `DEVSPACE`. -/
def devspace : Nat := 0xFE000000

/-- `KERNBASE`. -/
def kernbase : Nat := 0x80000000

/-- `KERNLINK`. -/
def kernlink : Nat := kernbase + extmem

/-- `PTE_P`. -/
def pteP : Nat := 1

/-- `PTE_W`. -/
def pteW : Nat := 2

/-- `PTE_U`. -/
def pteU : Nat := 4

/-- The symbols `data` and `end` of `kernel.ld`, as `data` and `stop`.  The
text in front of `data` is not empty, and the kernel ends in the first four
megabytes, which is all that `entrypgdir` maps. -/
structure Kernel where
  data : Nat
  stop : Nat
  aligned : data % pgsize = 0
  text : kernlink < data
  ordered : data ≤ stop
  small : stop < kernbase + 4 * 1024 * 1024

/-- Subtraction of C's `uint`. -/
def uintSub (left right : Nat) : Nat := (left + (2 ^ 32 - right)) % 2 ^ 32

/-- `PGROUNDUP`. -/
def pgroundup (sz : Nat) : Nat := uintAdd sz (pgsize - 1) / pgsize * pgsize

/-- `PGROUNDDOWN`. -/
def pgrounddown (a : Nat) : Nat := a / pgsize * pgsize

/-- `PDX`. -/
def pdx (va : Nat) : Nat := va / 2 ^ 22 % npdentries

/-- `PTX`. -/
def ptx (va : Nat) : Nat := va / pgsize % npdentries

/-- `PGADDR(d, 0, 0)`. -/
def pgaddr (d : Nat) : Nat := d * 2 ^ 22 % 2 ^ 32

/-! ## Entries -/

/-- `*pte & PTE_P`. -/
def present (pte : UInt32) : Bool := pte.toNat % 2 = 1

/-- `*pte & PTE_U`. -/
def user (pte : UInt32) : Bool := pte.toNat / 4 % 2 = 1

/-- The frame of `PTE_ADDR`. -/
def frame (pte : UInt32) : Nat := pte.toNat / pgsize

/-- `PTE_FLAGS`. -/
def pteFlags (pte : UInt32) : Nat := pte.toNat % pgsize

/-- `pa | perm | PTE_P`. -/
def entry (f perm : Nat) : UInt32 := UInt32.ofNat (f * pgsize ||| perm ||| pteP)

/-- `*pte & ~PTE_U`. -/
def withoutUser (pte : UInt32) : UInt32 :=
  if user pte then pte - UInt32.ofNat pteU else pte

/-! ## The allocator -/

/-- The contents of the pages, and `kmem.freelist`. -/
structure Memory where
  pages : Nat → Bytes
  freelist : List Nat

abbrev Code := Program Memory Fault

def setPage (f : Nat) (page : Bytes) : Code Unit :=
  modify fun m => { m with pages := Function.update m.pages f page }

/-- Store an entry of a table. -/
def setEntry (t i : Nat) (pte : UInt32) : Code Unit := do
  let m ← get
  setPage t (putWord (m.pages t) i pte)

/-- Load an entry of a table. -/
def getEntry (t i : Nat) : Code UInt32 := do
  let m ← get
  pure (word (m.pages t) i)

/-- `kalloc`. -/
def kalloc : Code (Option Nat) := do
  let m ← get
  match m.freelist with
  | [] => pure none
  | f :: rest => do
      set { m with freelist := rest }
      pure (some f)

section Kernel

variable (k : Kernel)

/-- `kfree`. -/
def kfree (f : Nat) : Code Unit :=
  if uintAdd (f * pgsize) kernbase < k.stop ∨ phystop ≤ f * pgsize then
    throw (.panic "kfree")
  else
    modify fun m =>
      { pages := Function.update m.pages f fun _ => 1
        freelist := f :: m.freelist }

/-- `freerange`, for the frames between the two addresses. -/
def freerange : List Nat → Code Unit
  | [] => pure ()
  | f :: rest => do
      kfree k f
      freerange rest

/-! ## Page tables -/

/-- `walkpgdir`, with the table and the index of the entry. -/
def walkpgdir (pgdir va : Nat) (alloc : Bool) : Code (Option (Nat × Nat)) := do
  let pde ← getEntry pgdir (pdx va)
  if present pde then pure (some (frame pde, ptx va))
  else if alloc then do
    let mem ← kalloc
    match mem with
    | none => pure none
    | some pgtab => do
        setPage pgtab zeroes
        setEntry pgdir (pdx va) (entry pgtab (pteW ||| pteU))
        pure (some (pgtab, ptx va))
  else pure none

/-- The loop of `mappages`, for the number of pages up to `last`. -/
def mappagesLoop (pgdir perm : Nat) : Nat → Nat → Nat → Code Bool
  | 0, _, _ => pure true
  | count + 1, a, pa => do
      let found ← walkpgdir pgdir a true
      match found with
      | none => pure false
      | some (t, i) => do
          let pte ← getEntry t i
          if present pte then throw (.panic "remap")
          else do
            setEntry t i (entry pa perm)
            mappagesLoop pgdir perm count (uintAdd a pgsize) (pa + 1)

/-- `mappages`, for the frame of `pa`.  `false` is `-1`. -/
def mappages (pgdir va size pa perm : Nat) : Code Bool :=
  let a := pgrounddown va
  let last := pgrounddown (uintSub (uintAdd va size) 1)
  mappagesLoop pgdir perm (uintSub last a / pgsize + 1) a pa

/-- `struct kmap`, with the frames in place of the physical addresses. -/
structure Kmap where
  virt : Nat
  size : Nat
  frame : Nat
  perm : Nat

/-- `kmap`. -/
def kmap : List Kmap :=
  [⟨kernbase, extmem, 0, pteW⟩,
    ⟨kernlink, k.data - kernlink, extmem / pgsize, 0⟩,
    ⟨k.data, phystop - (k.data - kernbase), (k.data - kernbase) / pgsize,
      pteW⟩,
    ⟨devspace, uintSub 0 devspace, devspace / pgsize, pteW⟩]

/-- The loop of `deallocuvm`.  Where a table is missing it goes on behind the
addresses of that table. -/
def deallocuvmLoop (pgdir oldsz : Nat) : Nat → Nat → Code Unit
  | 0, _ => throw .hang
  | fuel + 1, a =>
      if a < oldsz then do
        let found ← walkpgdir pgdir a false
        match found with
        | none =>
            let a := uintSub (pgaddr (pdx a + 1)) pgsize
            deallocuvmLoop pgdir oldsz fuel (uintAdd a pgsize)
        | some (t, i) => do
            let pte ← getEntry t i
            (if present pte then
              if frame pte = 0 then throw (.panic "kfree")
              else do
                kfree k (frame pte)
                setEntry t i 0
             else pure ())
            deallocuvmLoop pgdir oldsz fuel (uintAdd a pgsize)
      else pure ()

/-- `deallocuvm`. -/
def deallocuvm (pgdir oldsz newsz : Nat) : Code Nat :=
  if newsz ≥ oldsz then pure oldsz
  else do
    deallocuvmLoop k pgdir oldsz (oldsz / pgsize + 2) (pgroundup newsz)
    pure newsz

/-- The loop of `freevm` over the entries of the directory. -/
def freeTables (pgdir : Nat) : List Nat → Code Unit
  | [] => pure ()
  | i :: rest => do
      let pde ← getEntry pgdir i
      (if present pde then kfree k (frame pde) else pure ())
      freeTables pgdir rest

/-- `freevm`. -/
def freevm (pgdir : Nat) : Code Unit := do
  let _ ← deallocuvm k pgdir kernbase 0
  freeTables k pgdir (List.range npdentries)
  kfree k pgdir

/-- The loop of `setupkvm` over `kmap`. -/
def setupkvmLoop (pgdir : Nat) : List Kmap → Code Bool
  | [] => pure true
  | e :: rest => do
      let mapped ← mappages pgdir e.virt e.size e.frame e.perm
      if mapped then setupkvmLoop pgdir rest
      else do
        freevm k pgdir
        pure false

/-- `setupkvm`.  `P2V(PHYSTOP)` is not above `DEVSPACE`. -/
def setupkvm : Code (Option Nat) := do
  let mem ← kalloc
  match mem with
  | none => pure none
  | some pgdir => do
      setPage pgdir zeroes
      let done ← setupkvmLoop k pgdir (kmap k)
      pure (if done then some pgdir else none)

/-- The loop of `allocuvm`. -/
def allocuvmLoop (pgdir oldsz newsz : Nat) : Nat → Nat → Code Nat
  | 0, _ => throw .hang
  | fuel + 1, a =>
      if a < newsz then do
        let mem ← kalloc
        match mem with
        | none => do
            let _ ← deallocuvm k pgdir newsz oldsz
            pure 0
        | some mem => do
            setPage mem zeroes
            let mapped ← mappages pgdir a pgsize mem (pteW ||| pteU)
            if mapped then
              allocuvmLoop pgdir oldsz newsz fuel (uintAdd a pgsize)
            else do
              let _ ← deallocuvm k pgdir newsz oldsz
              kfree k mem
              pure 0
      else pure newsz

/-- `allocuvm`. -/
def allocuvm (pgdir oldsz newsz : Nat) : Code Nat :=
  if newsz ≥ kernbase then pure 0
  else if newsz < oldsz then pure oldsz
  else allocuvmLoop k pgdir oldsz newsz (newsz / pgsize + 2) (pgroundup oldsz)

/-- `clearpteu`. -/
def clearpteu (pgdir uva : Nat) : Code Unit := do
  let found ← walkpgdir pgdir uva false
  match found with
  | none => throw (.panic "clearpteu")
  | some (t, i) => do
      let pte ← getEntry t i
      setEntry t i (withoutUser pte)

/-- The loop of `copyuvm`.  `false` is the label `bad`. -/
def copyuvmLoop (pgdir sz d : Nat) : Nat → Nat → Code Bool
  | 0, _ => throw .hang
  | fuel + 1, i =>
      if i < sz then do
        let found ← walkpgdir pgdir i false
        match found with
        | none => throw (.panic "copyuvm: pte should exist")
        | some (t, j) => do
            let pte ← getEntry t j
            if present pte then do
              let mem ← kalloc
              match mem with
              | none => pure false
              | some mem => do
                  let m ← get
                  setPage mem (m.pages (frame pte))
                  let mapped ← mappages d i pgsize mem (pteFlags pte)
                  if mapped then
                    copyuvmLoop pgdir sz d fuel (uintAdd i pgsize)
                  else do
                    kfree k mem
                    pure false
            else throw (.panic "copyuvm: page not present")
      else pure true

/-- `copyuvm`. -/
def copyuvm (pgdir sz : Nat) : Code (Option Nat) := do
  let dir ← setupkvm k
  match dir with
  | none => pure none
  | some d => do
      let copied ← copyuvmLoop k pgdir sz d (sz / pgsize + 2) 0
      if copied then pure (some d)
      else do
        freevm k d
        pure none

end Kernel

/-! ## Access to user memory -/

/-- `uva2ka`, with the frame of the address. -/
def uva2ka (pgdir uva : Nat) : Code (Option Nat) := do
  let found ← walkpgdir pgdir uva false
  match found with
  | none => throw .nullDereference
  | some (t, i) => do
      let pte ← getEntry t i
      if present pte = false then pure none
      else if user pte = false then pure none
      else pure (some (frame pte))

/-- The loop of `copyout`.  Every turn copies some bytes. -/
def copyoutLoop (pgdir : Nat) : Nat → Nat → List UInt8 → Code Bool
  | 0, _, _ => pure true
  | fuel + 1, va, buf =>
      if buf.length > 0 then do
        let va0 := pgrounddown va
        let pa0 ← uva2ka pgdir va0
        match pa0 with
        | none => pure false
        | some f => do
            let n := min (pgsize - (va - va0)) buf.length
            let m ← get
            setPage f (patch (m.pages f) (va - va0) n fun j => buf.getD j 0)
            copyoutLoop pgdir fuel (uintAdd va0 pgsize) (buf.drop n)
      else pure true

/-- `copyout`.  `false` is `-1`. -/
def copyout (pgdir va : Nat) (p : List UInt8) : Code Bool :=
  copyoutLoop pgdir p.length va p

end Xv6.Vm
