import Xv6.Fs.Directories

/-!
# Open files, `kernel/file.c` and `kernel/sysfile.c`

The state has the file system, `ftable` and the process that makes the system
call.  Of the pipes only the two functions that are called from here matter,
and they are parameters.
-/

namespace Xv6.Fs

open Lib

/-- `NFILE`. -/
def nfile : Nat := 100

instance : NeZero nfile := ⟨by decide⟩

/-- `NOFILE`. -/
def nofile : Nat := 16

/-- `f->type`. -/
inductive FileType where
  | none
  | pipe
  | inode
  deriving DecidableEq

/-- `struct file`. -/
structure File where
  type : FileType
  ref : Nat
  readable : Bool
  writable : Bool
  pipe : Nat
  ip : Nat
  off : Nat
  deriving DecidableEq

/-- The file system, `ftable` and the caller. -/
structure Kernel where
  fs : State
  ftable : Fin nfile → File
  ofile : Fin nofile → Option (Fin nfile)
  cwd : Nat

abbrev Call := Program Kernel Fault

/-- What the functions of `fs.c` do. -/
def fs {α : Type} : Code α → Call α :=
  inPart Kernel.fs fun fs kernel => { kernel with fs := fs }

/-- Change `*f`. -/
def setFile (f : Fin nfile) (change : File → File) : Call Unit :=
  modify fun kernel =>
    { kernel with
      ftable := Function.update kernel.ftable f (change (kernel.ftable f)) }

/-- What `pipe.c` does for a file. -/
structure Pipes where
  pipewrite : Nat → List UInt8 → Call Int
  pipeclose : Nat → Bool → Call Unit

section Table

variable (sb : Superblock) (pipes : Pipes)

/-- `filealloc`. -/
def filealloc : Call (Option (Fin nfile)) := do
  let kernel ← get
  match (List.finRange nfile).find? fun f => (kernel.ftable f).ref = 0 with
  | some f => do
      setFile f fun file => { file with ref := 1 }
      pure (some f)
  | none => pure none

/-- `fileclose`. -/
def fileclose (f : Fin nfile) : Call Unit := do
  let kernel ← get
  let file := kernel.ftable f
  if file.ref < 1 then throw (.panic "fileclose")
  else if file.ref - 1 > 0 then
    setFile f fun file => { file with ref := file.ref - 1 }
  else do
    setFile f fun file => { file with ref := 0, type := .none }
    match file.type with
    | .pipe => pipes.pipeclose file.pipe file.writable
    | .inode => do
        fs beginOp
        fs (iput sb file.ip)
        fs endOp
    | .none => pure ()

/-- `fdalloc`. -/
def fdalloc (f : Fin nfile) : Call (Option (Fin nofile)) := do
  let kernel ← get
  match (List.finRange nofile).find? fun fd => kernel.ofile fd = none with
  | some fd => do
      set { kernel with ofile := Function.update kernel.ofile fd (some f) }
      pure (some fd)
  | none => pure none

/-! ## Writing -/

/-- `((MAXOPBLOCKS-1-1-2) / 2) * 512`. -/
def maxWrite : Nat := (maxOpBlocks - 1 - 1 - 2) / 2 * 512

/-- One turn of the loop of `filewrite`, for the bytes at `addr + i`. -/
def filewriteChunk (f : Fin nfile) (chunk : List UInt8) : Call Int := do
  fs beginOp
  let kernel ← get
  let file := kernel.ftable f
  fs (ilock sb file.ip)
  let r ← fs (writei sb file.ip chunk file.off)
  (if r > 0 then
    setFile f fun file => { file with off := uintAdd file.off r.toNat }
   else pure ())
  fs (iunlock file.ip)
  fs endOp
  pure r

/-- The loop of `filewrite`. -/
def filewriteLoop (f : Fin nfile) (src : List UInt8) : Nat → Nat → Call Nat
  | 0, i => pure i
  | fuel + 1, i =>
      if i < src.length then do
        let n1 := min (src.length - i) maxWrite
        let r ← filewriteChunk sb f ((src.drop i).take n1)
        if r < 0 then pure i
        else if r ≠ n1 then throw (.panic "short filewrite")
        else filewriteLoop f src fuel (i + r.toNat)
      else pure i

/-- `filewrite`, for `n` bytes at `addr`. -/
def filewrite (f : Fin nfile) (src : List UInt8) : Call Int := do
  let kernel ← get
  let file := kernel.ftable f
  if file.writable = false then pure (-1)
  else
    match file.type with
    | .pipe => pipes.pipewrite file.pipe src
    | .inode => do
        let i ← filewriteLoop sb f src src.length 0
        pure (if i = src.length then src.length else -1)
    | .none => throw (.panic "filewrite")

/-! ## Opening -/

/-- `O_WRONLY`. -/
def oWronly : UInt32 := 0x001

/-- `O_RDWR`. -/
def oRdwr : UInt32 := 0x002

/-- `O_CREATE`. -/
def oCreate : UInt32 := 0x200

/-- The inode that `sys_open` works on, locked, or `none` behind `end_op`. -/
def openInode (cwd : Nat) (path : List UInt8) (omode : UInt32) :
    Code (Option Nat) :=
  if omode &&& oCreate ≠ 0 then do
    let made ← create sb cwd path tFile 0 0
    match made with
    | none => do
        endOp
        pure none
    | some ip => pure (some ip)
  else do
    let found ← namei sb cwd path
    match found with
    | none => do
        endOp
        pure none
    | some ip => do
        ilock sb ip
        let inode ← fetch ip
        if inode.dinode.type = tDir ∧ omode ≠ 0 then do
          iunlockput sb ip
          endOp
          pure none
        else pure (some ip)

/-- `sys_open` without an entry of `ftable` or of `ofile`. -/
def openFull (ip : Nat) : Call Int := do
  fs (iunlockput sb ip)
  fs endOp
  pure (-1)

/-- `sys_open` behind the inode. -/
def openFile (ip : Nat) (omode : UInt32) : Call Int := do
  let f ← filealloc
  match f with
  | none => openFull sb ip
  | some f => do
      let fd ← fdalloc f
      match fd with
      | none => do
          fileclose sb pipes f
          openFull sb ip
      | some fd => do
          fs (iunlock ip)
          fs endOp
          setFile f fun file =>
            { file with
              type := .inode
              ip := ip
              off := 0
              readable := omode &&& oWronly = 0
              writable := omode &&& oWronly ≠ 0 ∨ omode &&& oRdwr ≠ 0 }
          pure fd

/-- `sys_open`.  `none` is an argument that could not be fetched. -/
def sysOpen (path : Option (List UInt8)) (omode : Option UInt32) :
    Call Int :=
  match path, omode with
  | some path, some omode => do
      let kernel ← get
      fs beginOp
      let ip ← fs (openInode sb kernel.cwd path omode)
      match ip with
      | none => pure (-1)
      | some ip => openFile sb pipes ip omode
  | _, _ => pure (-1)

end Table

end Xv6.Fs
