import Xv6.Fs.Inodes

/-!
# Directories and paths, `kernel/fs.c` and `kernel/sysfile.c`

A path is the list of its bytes.  A directory entry is read with `readi` and
written with `writei` like any other contents.
-/

namespace Xv6.Fs

open Lib

/-- `'/'`. -/
def slash : UInt8 := 47

/-- `"."`. -/
def dot : List UInt8 := [46]

/-- `".."`. -/
def dotdot : List UInt8 := [46, 46]

section Directories

variable (sb : Superblock)

/-- Read a `struct dirent`, or stop with a message. -/
def readDirent (dp off : Nat) (message : String) : Code Dirent := do
  let bytes ← readi sb dp off direntSize
  match bytes with
  | some bytes =>
      if bytes.length = direntSize then
        pure (Dirent.decode fun k => bytes.getD k 0)
      else panic message
  | none => panic message

/-- The offsets of the loops over a directory, from one on. -/
def direntOffsets (start size : Nat) : List Nat :=
  (List.range' start ((size + direntSize - 1) / direntSize - start)).map
    fun i => i * direntSize

/-- The loop of `dirlookup`. -/
def dirlookupLoop (dp : Nat) (name : List UInt8) :
    List Nat → Code (Option (Nat × Nat))
  | [] => pure none
  | off :: rest => do
      let de ← readDirent sb dp off "dirlookup read"
      if de.inum ≠ 0 ∧ namecmp name de.name = 0 then do
        let ip ← iget de.inum.toNat
        pure (some (ip, off))
      else dirlookupLoop dp name rest

/-- `dirlookup`, with the offset that it stores in `*poff`. -/
def dirlookup (dp : Nat) (name : List UInt8) : Code (Option (Nat × Nat)) := do
  let ip ← fetch dp
  if ip.dinode.type = tDir then
    dirlookupLoop sb dp name (direntOffsets 0 ip.dinode.size.toNat)
  else panic "dirlookup not DIR"

/-- The loop of `dirlink`, which ends at `last` if no entry is free. -/
def dirlinkLoop (dp last : Nat) : List Nat → Code Nat
  | [] => pure last
  | off :: rest => do
      let de ← readDirent sb dp off "dirlink read"
      if de.inum = 0 then pure off else dirlinkLoop dp last rest

/-- Write a `struct dirent`, or stop with a message. -/
def writeDirent (dp off : Nat) (de : Dirent) (message : String) :
    Code Unit := do
  let written ← writei sb dp de.bytes off
  if written = direntSize then pure () else panic message

/-- `dirlink`. -/
def dirlink (dp : Nat) (name : List UInt8) (inum : Nat) : Code Int := do
  let found ← dirlookup sb dp name
  match found with
  | some (ip, _) => do
      iput sb ip
      pure (-1)
  | none => do
      let ip ← fetch dp
      let offsets := direntOffsets 0 ip.dinode.size.toNat
      let off ← dirlinkLoop sb dp (offsets.length * direntSize) offsets
      writeDirent sb dp off ⟨UInt16.ofNat inum, strncpy dirsiz name⟩ "dirlink"
      pure 0

/-! ## Paths -/

/-- `skipelem`, with the name that it copies. -/
def skipelem (path : List UInt8) : Option (List UInt8 × List UInt8) :=
  let path := path.dropWhile fun byte => byte = slash
  if path = [] then none
  else
    let s := path.takeWhile fun byte => byte ≠ slash
    let path := path.dropWhile fun byte => byte ≠ slash
    some (path.dropWhile fun byte => byte = slash, s.take dirsiz)

/-- The loop of `namex`.  Every turn makes the path shorter. -/
def namexLoop (nameiparent : Bool) :
    Nat → Nat → List UInt8 → List UInt8 → Code (Option (Nat × List UInt8))
  | 0, _, _, _ => throw .hang
  | fuel + 1, ip, path, name =>
      match skipelem path with
      | none =>
          if nameiparent then do
            iput sb ip
            pure none
          else pure (some (ip, name))
      | some (path, name) => do
          ilock sb ip
          let inode ← fetch ip
          if inode.dinode.type = tDir then
            if nameiparent ∧ path = [] then do
              iunlock ip
              pure (some (ip, name))
            else do
              let next ← dirlookup sb ip name
              iunlockput sb ip
              match next with
              | none => pure none
              | some (next, _) => namexLoop nameiparent fuel next path name
          else do
            iunlockput sb ip
            pure none

/-- `namex`, for a process with the current directory `cwd`. -/
def namex (cwd : Nat) (path : List UInt8) (nameiparent : Bool) :
    Code (Option (Nat × List UInt8)) := do
  let ip ← if path.head? = some slash then iget rootino else idup cwd
  namexLoop sb nameiparent (path.length + 1) ip path []

/-- `namei`. -/
def namei (cwd : Nat) (path : List UInt8) : Code (Option Nat) := do
  let found ← namex sb cwd path false
  pure (found.map Prod.fst)

/-- `nameiparent`. -/
def nameiparent (cwd : Nat) (path : List UInt8) :
    Code (Option (Nat × List UInt8)) :=
  namex sb cwd path true

/-! ## Creating and removing -/

/-- Make the entries `.` and `..`, in `create`. -/
def createDots (ip dp : Nat) : Code Unit := do
  setDinode dp fun dinode => { dinode with nlink := dinode.nlink + 1 }
  iupdate sb dp
  let made ← dirlink sb ip dot ip
  if made < 0 then panic "create dots"
  else do
    let made ← dirlink sb ip dotdot dp
    if made < 0 then panic "create dots" else pure ()

/-- `create` for a name that is not there. -/
def createNew (dp : Nat) (name : List UInt8) (type major minor : UInt16) :
    Code Nat := do
  let ip ← ialloc sb type
  ilock sb ip
  setDinode ip fun dinode =>
    { dinode with major := major, minor := minor, nlink := 1 }
  iupdate sb ip
  (if type = tDir then createDots sb ip dp else pure ())
  let made ← dirlink sb dp name ip
  if made < 0 then panic "create: dirlink"
  else do
    iunlockput sb dp
    pure ip

/-- `create`. -/
def create (cwd : Nat) (path : List UInt8) (type major minor : UInt16) :
    Code (Option Nat) := do
  let parent ← nameiparent sb cwd path
  match parent with
  | none => pure none
  | some (dp, name) => do
      ilock sb dp
      let found ← dirlookup sb dp name
      match found with
      | some (ip, _) => do
          iunlockput sb dp
          ilock sb ip
          let inode ← fetch ip
          if type = tFile ∧ inode.dinode.type = tFile then pure (some ip)
          else do
            iunlockput sb ip
            pure none
      | none => do
          let ip ← createNew sb dp name type major minor
          pure (some ip)

/-- `sys_mkdir` and `sys_mknod`, once the arguments were fetched.  `none` is an
argument that could not be fetched. -/
def mknod (cwd : Nat) (path : Option (List UInt8))
    (type major minor : UInt16) : Code Int := do
  beginOp
  match path with
  | none => do
      endOp
      pure (-1)
  | some path => do
      let made ← create sb cwd path type major minor
      match made with
      | none => do
          endOp
          pure (-1)
      | some ip => do
          iunlockput sb ip
          endOp
          pure 0

/-- `sys_mkdir`. -/
def sysMkdir (cwd : Nat) (path : Option (List UInt8)) : Code Int :=
  mknod sb cwd path tDir 0 0

/-- `sys_mknod`. -/
def sysMknod (cwd : Nat) (path : Option (List UInt8))
    (major minor : Option UInt16) : Code Int :=
  match major, minor with
  | some major, some minor => mknod sb cwd path tDev major minor
  | _, _ => mknod sb cwd none tDev 0 0

/-- The label `bad` of `sys_link`. -/
def linkBad (ip : Nat) : Code Int := do
  ilock sb ip
  setDinode ip fun dinode => { dinode with nlink := dinode.nlink - 1 }
  iupdate sb ip
  iunlockput sb ip
  endOp
  pure (-1)

/-- `sys_link` behind the new link count. -/
def linkNew (cwd ip : Nat) (new : List UInt8) : Code Int := do
  let parent ← nameiparent sb cwd new
  match parent with
  | none => linkBad sb ip
  | some (dp, name) => do
      ilock sb dp
      let made ← dirlink sb dp name ip
      iunlockput sb dp
      if made < 0 then linkBad sb ip
      else do
        iput sb ip
        endOp
        pure 0

/-- `sys_link` behind the arguments. -/
def linkOld (cwd : Nat) (old new : List UInt8) : Code Int := do
  beginOp
  let found ← namei sb cwd old
  match found with
  | none => do
      endOp
      pure (-1)
  | some ip => do
      ilock sb ip
      let inode ← fetch ip
      if inode.dinode.type = tDir then do
        iunlockput sb ip
        endOp
        pure (-1)
      else do
        setDinode ip fun dinode => { dinode with nlink := dinode.nlink + 1 }
        iupdate sb ip
        iunlock ip
        linkNew sb cwd ip new

/-- `sys_link`. -/
def sysLink (cwd : Nat) (old new : Option (List UInt8)) : Code Int :=
  match old, new with
  | some old, some new => linkOld sb cwd old new
  | _, _ => pure (-1)

/-- The loop of `isdirempty`. -/
def isdiremptyLoop (dp : Nat) : List Nat → Code Bool
  | [] => pure true
  | off :: rest => do
      let de ← readDirent sb dp off "isdirempty: readi"
      if de.inum ≠ 0 then pure false else isdiremptyLoop dp rest

/-- `isdirempty`. -/
def isdirempty (dp : Nat) : Code Bool := do
  let ip ← fetch dp
  isdiremptyLoop sb dp (direntOffsets 2 ip.dinode.size.toNat)

/-- `ip->type == T_DIR && !isdirempty(ip)`. -/
def unlinkRefused (ip : Nat) : Code Bool := do
  let inode ← fetch ip
  if inode.dinode.type = tDir then do
    let empty ← isdirempty sb ip
    pure (!empty)
  else pure false

/-- `sys_unlink` for an entry that may go. -/
def unlinkEntry (dp ip off : Nat) : Code Int := do
  writeDirent sb dp off ⟨0, List.replicate dirsiz 0⟩ "unlink: writei"
  let inode ← fetch ip
  (if inode.dinode.type = tDir then do
    setDinode dp fun dinode => { dinode with nlink := dinode.nlink - 1 }
    iupdate sb dp
   else pure ())
  iunlockput sb dp
  setDinode ip fun dinode => { dinode with nlink := dinode.nlink - 1 }
  iupdate sb ip
  iunlockput sb ip
  endOp
  pure 0

/-- `(short)nlink < 1`. -/
def unlinked (nlink : UInt16) : Bool := nlink = 0 ∨ 2 ^ 15 ≤ nlink.toNat

/-- `sys_unlink` behind `nameiparent`. -/
def unlinkName (dp : Nat) (name : List UInt8) : Code Int := do
  ilock sb dp
  if namecmp name dot = 0 ∨ namecmp name dotdot = 0 then do
    iunlockput sb dp
    endOp
    pure (-1)
  else do
    let found ← dirlookup sb dp name
    match found with
    | none => do
        iunlockput sb dp
        endOp
        pure (-1)
    | some (ip, off) => do
        ilock sb ip
        let inode ← fetch ip
        if unlinked inode.dinode.nlink then panic "unlink: nlink < 1"
        else do
          let refused ← unlinkRefused sb ip
          if refused then do
            iunlockput sb ip
            iunlockput sb dp
            endOp
            pure (-1)
          else unlinkEntry sb dp ip off

/-- `sys_unlink`. -/
def sysUnlink (cwd : Nat) (path : Option (List UInt8)) : Code Int :=
  match path with
  | none => pure (-1)
  | some path => do
      beginOp
      let parent ← nameiparent sb cwd path
      match parent with
      | none => do
          endOp
          pure (-1)
      | some (dp, name) => unlinkName sb dp name

/-- `sys_chdir`, with the current directory behind it. -/
def sysChdir (cwd : Nat) (path : Option (List UInt8)) : Code (Int × Nat) := do
  beginOp
  match path with
  | none => do
      endOp
      pure (-1, cwd)
  | some path => do
      let found ← namei sb cwd path
      match found with
      | none => do
          endOp
          pure (-1, cwd)
      | some ip => do
          ilock sb ip
          let inode ← fetch ip
          if inode.dinode.type = tDir then do
            iunlock ip
            iput sb cwd
            endOp
            pure (0, ip)
          else do
            iunlockput sb ip
            endOp
            pure (-1, cwd)

end Directories

end Xv6.Fs
