import Xv6.Vm.Paging

/-!
# The memory of processes, `kernel/exec.c` and `kernel/proc.c`

`exec`, `fork`, `growproc` and what `wait` does with a dead child, as far as
they change memory.  A program is the list of the bytes of its file, which
`readi` returns, and an argument is the list of the bytes in front of its
`NUL`.  The calls run one after the other, since they share nothing but
`kmem`, which has a lock.
-/

namespace Xv6.Vm

open Lib
open Fs (Bytes bytesFrom patch uint ushort zeroes)

/-- `MAXARG`. -/
def maxarg : Nat := 32

/-- `ELF_MAGIC`. -/
def elfMagic : UInt32 := 0x464C457F

/-- `ELF_PROG_LOAD`. -/
def elfProgLoad : UInt32 := 1

/-- `sizeof(struct elfhdr)`. -/
def elfhdrSize : Nat := 52

/-- `sizeof(struct proghdr)`. -/
def proghdrSize : Nat := 32

/-- `struct elfhdr`. -/
structure Elfhdr where
  magic : UInt32
  entry : Nat
  phoff : Nat
  phnum : Nat

/-- `struct proghdr`. -/
structure Proghdr where
  type : UInt32
  off : Nat
  vaddr : Nat
  filesz : Nat
  memsz : Nat

def Elfhdr.decode (bytes : Nat → UInt8) : Elfhdr where
  magic := uint (bytesFrom bytes 0)
  entry := (uint (bytesFrom bytes 24)).toNat
  phoff := (uint (bytesFrom bytes 28)).toNat
  phnum := (ushort (bytesFrom bytes 44)).toNat

def Proghdr.decode (bytes : Nat → UInt8) : Proghdr where
  type := uint (bytesFrom bytes 0)
  off := (uint (bytesFrom bytes 4)).toNat
  vaddr := (uint (bytesFrom bytes 8)).toNat
  filesz := (uint (bytesFrom bytes 16)).toNat
  memsz := (uint (bytesFrom bytes 20)).toNat

/-- `readi` on a file.  `none` is `-1`. -/
def readFile (file : List UInt8) (off n : Nat) : Option (List UInt8) :=
  if off > file.length ∨ uintAdd off n < off then none
  else some ((file.drop off).take n)

/-- Read a record, `readi(ip, p, off, n) != n`. -/
def readRecord (file : List UInt8) (off n : Nat) : Option (Nat → UInt8) :=
  match readFile file off n with
  | none => none
  | some bytes =>
      if bytes.length = n then some fun i => bytes.getD i 0 else none

/-- `struct proc`, with the fields `eip` and `esp` of `p->tf`. -/
structure Proc where
  pgdir : Nat
  sz : Nat
  kstack : Nat
  eip : Nat
  esp : Nat
  deriving DecidableEq

section Kernel

variable (k : Kernel)

/-- `growproc`.  `none` is `-1`. -/
def growproc (p : Proc) (n : Int) : Code (Option Proc) :=
  let newsz := (((p.sz : Int) + n) % 2 ^ 32).toNat
  if n > 0 then do
    let sz ← allocuvm k p.pgdir p.sz newsz
    pure (if sz = 0 then none else some { p with sz := sz })
  else if n < 0 then do
    let sz ← deallocuvm k p.pgdir p.sz newsz
    pure (if sz = 0 then none else some { p with sz := sz })
  else pure (some p)

/-- `fork` behind the search for a free slot.  `none` is `-1`. -/
def fork (p : Proc) : Code (Option Proc) := do
  let kstack ← kalloc
  match kstack with
  | none => pure none
  | some kstack => do
      let pgdir ← copyuvm k p.pgdir p.sz
      match pgdir with
      | none => do
          kfree k kstack
          pure none
      | some pgdir => pure (some { p with pgdir := pgdir, kstack := kstack })

/-- Free the memory of a dead child, in `wait`. -/
def reap (p : Proc) : Code Unit := do
  kfree k p.kstack
  freevm k p.pgdir

/-! ## `exec` -/

/-- The loop of `loaduvm`.  `false` is `-1`. -/
def loaduvmLoop (pgdir addr : Nat) (file : List UInt8) (offset sz : Nat) :
    Nat → Nat → Code Bool
  | 0, _ => throw .hang
  | fuel + 1, i =>
      if i < sz then do
        let found ← walkpgdir pgdir (uintAdd addr i) false
        match found with
        | none => throw (.panic "loaduvm: address should exist")
        | some (t, j) => do
            let pte ← getEntry t j
            let n := min (sz - i) pgsize
            match readFile file (uintAdd offset i) n with
            | none => pure false
            | some bytes => do
                let m ← get
                setPage (frame pte)
                  (patch (m.pages (frame pte)) 0 bytes.length fun j =>
                    bytes.getD j 0)
                if bytes.length = n then
                  loaduvmLoop pgdir addr file offset sz fuel
                    (uintAdd i pgsize)
                else pure false
      else pure true

/-- `loaduvm`. -/
def loaduvm (pgdir addr : Nat) (file : List UInt8) (offset sz : Nat) :
    Code Bool :=
  if addr % pgsize = 0 then
    loaduvmLoop pgdir addr file offset sz (sz / pgsize + 2) 0
  else throw (.panic "loaduvm: addr must be page aligned")

/-- Load a segment, with the size behind it.  `none` is the label `bad`. -/
def loadSegment (pgdir : Nat) (file : List UInt8) (sz : Nat) (ph : Proghdr) :
    Code (Option Nat) :=
  if ph.type ≠ elfProgLoad then pure (some sz)
  else if ph.memsz < ph.filesz then pure none
  else if uintAdd ph.vaddr ph.memsz < ph.vaddr then pure none
  else do
    let sz ← allocuvm k pgdir sz (uintAdd ph.vaddr ph.memsz)
    if sz = 0 then pure none
    else if ph.vaddr % pgsize ≠ 0 then pure none
    else do
      let loaded ← loaduvm pgdir ph.vaddr file ph.off ph.filesz
      pure (if loaded then some sz else none)

/-- The loop of `exec` over the program headers. -/
def loadSegments (pgdir : Nat) (file : List UInt8) :
    Nat → Nat → Nat → Code (Option Nat)
  | 0, _, sz => pure (some sz)
  | count + 1, off, sz =>
      match readRecord file off proghdrSize with
      | none => pure none
      | some bytes => do
          let sz ← loadSegment k pgdir file sz (Proghdr.decode bytes)
          match sz with
          | none => pure none
          | some sz =>
              loadSegments pgdir file count (uintAdd off proghdrSize) sz

/-- `(sp - (strlen(s) + 1)) & ~3`. -/
def pushed (sp length : Nat) : Nat :=
  uintSub sp ((length + 1) % 2 ^ 32) / 4 * 4

/-- The loop of `exec` over `argv`, with `sp` and the entries of `ustack`. -/
def pushArguments (pgdir : Nat) :
    List (List UInt8) → Nat → List Nat → Code (Option (Nat × List Nat))
  | [], sp, pointers => pure (some (sp, pointers))
  | arg :: rest, sp, pointers =>
      if pointers.length ≥ maxarg then pure none
      else do
        let sp := pushed sp arg.length
        let copied ← copyout pgdir sp (arg ++ [0])
        if copied then pushArguments pgdir rest sp (pointers ++ [sp])
        else pure none

/-- `ustack`, for the pointer behind the strings. -/
def ustack (sp : Nat) (pointers : List Nat) : List Nat :=
  [0xffffffff, pointers.length, uintSub sp ((pointers.length + 1) * 4)] ++
    pointers ++ [0]

/-- An array of words in memory. -/
def wordBytes (words : List Nat) : List UInt8 :=
  words.flatMap fun value => (List.range 4).map (littleByte value)

/-- The stack of the new image, with `tf->esp`. -/
def buildStack (pgdir : Nat) (argv : List (List UInt8)) (sz : Nat) :
    Code (Option Nat) := do
  clearpteu pgdir (uintSub sz (2 * pgsize))
  let strings ← pushArguments pgdir argv sz []
  match strings with
  | none => pure none
  | some (sp, pointers) => do
      let esp := uintSub sp ((3 + pointers.length + 1) * 4)
      let copied ← copyout pgdir esp (wordBytes (ustack sp pointers))
      pure (if copied then some esp else none)

/-- The segments and the two pages for the stack, with the size.  `none` is
the label `bad`. -/
def loadImage (pgdir : Nat) (file : List UInt8) (elf : Elfhdr) :
    Code (Option Nat) := do
  let sz ← loadSegments k pgdir file elf.phnum elf.phoff 0
  match sz with
  | none => pure none
  | some sz => do
      let sz ← allocuvm k pgdir (pgroundup sz)
        (uintAdd (pgroundup sz) (2 * pgsize))
      pure (if sz = 0 then none else some sz)

/-- The new image of `exec`, with `sz` and `tf->esp`. -/
def buildImage (pgdir : Nat) (file : List UInt8) (elf : Elfhdr)
    (argv : List (List UInt8)) : Code (Option (Nat × Nat)) := do
  let sz ← loadImage k pgdir file elf
  match sz with
  | none => pure none
  | some sz => do
      let esp ← buildStack pgdir argv sz
      pure (esp.map fun esp => (sz, esp))

/-- Check the ELF header. -/
def readHeader (file : List UInt8) : Option Elfhdr :=
  match readRecord file 0 elfhdrSize with
  | none => none
  | some bytes =>
      if (Elfhdr.decode bytes).magic = elfMagic then some (Elfhdr.decode bytes)
      else none

/-- `exec`, for the file that `namei` finds.  `none` is `-1`. -/
def exec (p : Proc) (file : Option (List UInt8)) (argv : List (List UInt8)) :
    Code (Option Proc) :=
  match file with
  | none => pure none
  | some file =>
      match readHeader file with
      | none => pure none
      | some elf => do
          let dir ← setupkvm k
          match dir with
          | none => pure none
          | some pgdir => do
              let image ← buildImage k pgdir file elf argv
              match image with
              | none => do
                  freevm k pgdir
                  pure none
              | some (sz, esp) => do
                  freevm k p.pgdir
                  pure (some
                    { p with
                      pgdir := pgdir, sz := sz, eip := elf.entry,
                      esp := esp })

end Kernel

/-! ## The arguments of system calls -/

/-- Load a byte through the page table of the process. -/
def loadByte (pgdir va : Nat) : Code UInt8 := do
  let found ← walkpgdir pgdir va false
  match found with
  | none => throw (.panic "trap")
  | some (t, i) => do
      let pte ← getEntry t i
      if present pte then do
        let m ← get
        pure (m.pages (frame pte) (va % pgsize))
      else throw (.panic "trap")

/-- `fetchint`. -/
def fetchint (p : Proc) (addr : Nat) : Code (Option Nat) :=
  if addr ≥ p.sz ∨ uintAdd addr 4 > p.sz then pure none
  else do
    let b0 ← loadByte p.pgdir addr
    let b1 ← loadByte p.pgdir (addr + 1)
    let b2 ← loadByte p.pgdir (addr + 2)
    let b3 ← loadByte p.pgdir (addr + 3)
    pure (some (littleValue (fun i => [b0, b1, b2, b3].getD i 0) 4))

/-- The loop of `fetchstr`, over the addresses below `p->sz`. -/
def fetchstrLoop (pgdir : Nat) : Nat → Nat → Code (Option (List UInt8))
  | 0, _ => pure none
  | count + 1, s => do
      let byte ← loadByte pgdir s
      if byte = 0 then pure (some [])
      else do
        let rest ← fetchstrLoop pgdir count (s + 1)
        pure (rest.map (byte :: ·))

/-- `fetchstr`, with the string in place of its address. -/
def fetchstr (p : Proc) (addr : Nat) : Code (Option (List UInt8)) :=
  if addr ≥ p.sz then pure none
  else fetchstrLoop p.pgdir (p.sz - addr) addr

/-- `argint`. -/
def argint (p : Proc) (n : Int) : Code (Option Nat) :=
  fetchint p (((p.esp : Int) + 4 + 4 * n) % 2 ^ 32).toNat

/-- `argptr`. -/
def argptr (p : Proc) (n size : Int) : Code (Option Nat) := do
  let i ← argint p n
  match i with
  | none => pure none
  | some i =>
      if size < 0 ∨ i ≥ p.sz ∨ uintAdd i size.toNat > p.sz then pure none
      else pure (some i)

/-- `argstr`, with the string in place of its address. -/
def argstr (p : Proc) (n : Int) : Code (Option (List UInt8)) := do
  let addr ← argint p n
  match addr with
  | none => pure none
  | some addr => fetchstr p addr

/-- The loop of `sys_exec`, for the entries of `argv` that are left. -/
def fetchArguments (p : Proc) :
    Nat → Nat → Code (Option (List (List UInt8)))
  | 0, _ => pure none
  | count + 1, addr => do
      let uarg ← fetchint p addr
      match uarg with
      | none => pure none
      | some 0 => pure (some [])
      | some uarg => do
          let arg ← fetchstr p uarg
          match arg with
          | none => pure none
          | some arg => do
              let rest ← fetchArguments p count (uintAdd addr 4)
              pure (rest.map (arg :: ·))

/-- `sys_exec`, for the second argument. -/
def sysExec (k : Kernel) (p : Proc) (file : Option (List UInt8))
    (uargv : Nat) : Code (Option Proc) := do
  let argv ← fetchArguments p maxarg uargv
  match argv with
  | none => pure none
  | some argv => exec k p file argv

end Xv6.Vm
