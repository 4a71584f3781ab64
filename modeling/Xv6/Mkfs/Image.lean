import Xv6.Fs.Format
import Xv6.Lib.Program

/-!
# Building an image, `mkfs/mkfs.c`

The host is little-endian, so that `xshort` and `xint` change nothing.  An
input is a file that can be opened, with its path and what `read` returns for
it until the end of the file.  `exit(1)`, a failed assertion and a bad pointer
are faults.
-/

namespace Xv6.Mkfs

open Lib Fs

/-- `NINODES`. -/
def ninodes : Nat := 200

def nbitmap : Nat := fssize / (bsize * 8) + 1

def ninodeblocks : Nat := ninodes / ipb + 1

def nlog : Nat := logSize

def nmeta : Nat := 2 + nlog + ninodeblocks + nbitmap

def nblocks : Nat := fssize - nmeta

def sb : Superblock where
  size := UInt32.ofNat fssize
  nblocks := UInt32.ofNat nblocks
  ninodes := UInt32.ofNat ninodes
  nlog := UInt32.ofNat nlog
  logstart := 2
  inodestart := UInt32.ofNat (2 + nlog)
  bmapstart := UInt32.ofNat (2 + nlog + ninodeblocks)

/-- The file behind `fsfd`, of `length` sectors, and the globals. -/
structure Image where
  disk : Nat → Bytes
  length : Nat
  freeinode : Nat
  freeblock : Nat

abbrev Build := Program Image Fault

/-- A file to put into the image. -/
structure Input where
  path : List UInt8
  reads : List (List UInt8)
  nonempty : ∀ bytes ∈ reads, bytes ≠ []
  short : ∀ bytes ∈ reads, bytes.length ≤ bsize

def Input.content (input : Input) : List UInt8 := input.reads.flatten

/-- `wsect`. -/
def wsect (sec : Nat) (buf : Bytes) : Build Unit :=
  modify fun image =>
    { image with
      disk := Function.update image.disk sec buf
      length := max image.length (sec + 1) }

/-- `rsect`. -/
def rsect (sec : Nat) : Build Bytes := do
  let image ← get
  if sec < image.length then pure (image.disk sec)
  else throw (.panic "read")

/-- `winode`. -/
def winode (inum : Nat) (dinode : Dinode) : Build Unit := do
  let buf ← rsect (iblock sb inum)
  wsect (iblock sb inum) (putDinode buf inum dinode)

/-- `rinode`. -/
def rinode (inum : Nat) : Build Dinode := do
  let buf ← rsect (iblock sb inum)
  pure (getDinode buf inum)

/-- `ialloc`. -/
def ialloc (type : UInt16) : Build Nat := do
  let image ← get
  set { image with freeinode := image.freeinode + 1 }
  winode image.freeinode (Dinode.new type 1)
  pure image.freeinode

/-- `freeblock++`. -/
def nextBlock : Build Nat := do
  let image ← get
  set { image with freeblock := image.freeblock + 1 }
  pure image.freeblock

/-- `if(xint(din.addrs[i]) == 0) din.addrs[i] = xint(freeblock++)`. -/
def appendSlot (din : Dinode) (i : Fin (ndirect + 1)) : Build Dinode :=
  if din.addrs i = 0 then do
    let b ← nextBlock
    pure { din with addrs := Function.update din.addrs i (UInt32.ofNat b) }
  else pure din

/-- `indirect[fbn-NDIRECT]`, with a new block if it is zero. -/
def appendEntry (din : Dinode) (fbn : Nat) : Build Nat := do
  let addr := (din.addrs (Fin.last ndirect)).toNat
  let indirect ← rsect addr
  if word indirect (fbn - ndirect) = 0 then do
    let b ← nextBlock
    let indirect := putWord indirect (fbn - ndirect) (UInt32.ofNat b)
    wsect addr indirect
    pure (word indirect (fbn - ndirect)).toNat
  else pure (word indirect (fbn - ndirect)).toNat

/-- The block `x` of `iappend` for the block `fbn` of the file. -/
def appendBlock (din : Dinode) (fbn : Nat) : Build (Dinode × Nat) :=
  if inside : fbn < ndirect then do
    let din ← appendSlot din ⟨fbn, Nat.lt_succ_of_lt inside⟩
    pure (din, (din.addrs ⟨fbn, Nat.lt_succ_of_lt inside⟩).toNat)
  else do
    let din ← appendSlot din (Fin.last ndirect)
    let x ← appendEntry din fbn
    pure (din, x)

/-- The loop of `iappend`. -/
def iappendLoop : Nat → Dinode → Nat → List UInt8 → Build (Dinode × Nat)
  | 0, din, off, _ => pure (din, off)
  | fuel + 1, din, off, p =>
      if p.length = 0 then pure (din, off)
      else if off / bsize < maxfile then do
        let (din, x) ← appendBlock din (off / bsize)
        let n1 := min p.length ((off / bsize + 1) * bsize - off)
        let buf ← rsect x
        wsect x (patch buf (off - off / bsize * bsize) n1 fun k => p.getD k 0)
        iappendLoop fuel din (off + n1) (p.drop n1)
      else throw (.panic "assert")

/-- `iappend`. -/
def iappend (inum : Nat) (p : List UInt8) : Build Unit := do
  let din ← rinode inum
  let (din, off) ← iappendLoop p.length din din.size.toNat p
  winode inum { din with size := UInt32.ofNat off }

/-- Append a `struct dirent`. -/
def appendDirent (dp : Nat) (de : Dirent) : Build Unit :=
  iappend dp de.bytes

/-- The loop over `read`. -/
def appendReads (inum : Nat) : List (List UInt8) → Build Unit
  | [] => pure ()
  | buf :: rest => do
      iappend inum buf
      appendReads inum rest

/-- `'/'`. -/
def slash : UInt8 := 47

/-- `'_'`. -/
def underscore : UInt8 := 95

/-- What follows the last `/` of a path, and a `_` there. -/
def shortname (path : List UInt8) : List UInt8 :=
  let name := (path.reverse.takeWhile fun byte => byte ≠ slash).reverse
  if name.head? = some underscore then name.tail else name

/-- The body of the loop over the arguments. -/
def addFile (rootino : Nat) (input : Input) : Build Unit :=
  if slash ∈ input.path then do
    let inum ← ialloc tFile
    appendDirent rootino
      ⟨UInt16.ofNat inum, strncpy dirsiz (shortname input.path)⟩
    appendReads inum input.reads
  else throw .nullDereference

def addFiles (rootino : Nat) : List Input → Build Unit
  | [] => pure ()
  | input :: rest => do
      addFile rootino input
      addFiles rootino rest

/-- The first sectors, up to the entries of the root directory. -/
def zeroSectors : List Nat → Build Unit
  | [] => pure ()
  | i :: rest => do
      wsect i zeroes
      zeroSectors rest

/-- `balloc`. -/
def balloc (used : Nat) : Build Unit :=
  if used < bsize * 8 then
    wsect sb.bmapstart.toNat ((List.range used).foldl setBit zeroes)
  else throw (.panic "assert")

/-- Fix the size of the root inode. -/
def fixRoot (rootino : Nat) : Build Unit := do
  let din ← rinode rootino
  let off := (din.size.toNat / bsize + 1) * bsize
  winode rootino { din with size := UInt32.ofNat off }

/-- An empty root directory. -/
def makeRoot : Build Nat := do
  zeroSectors (List.range fssize)
  wsect 1 (patch zeroes 0 28 sb.encode)
  let root ← ialloc tDir
  if root = rootino then do
    appendDirent root ⟨UInt16.ofNat root, strncpy dirsiz [46]⟩
    appendDirent root ⟨UInt16.ofNat root, strncpy dirsiz [46, 46]⟩
    pure root
  else throw (.panic "assert")

/-- `main`. -/
def main (files : List Input) : Build Unit := do
  let root ← makeRoot
  addFiles root files
  fixRoot root
  let image ← get
  balloc image.freeblock

/-- The globals when `main` starts, with an empty file. -/
def Image.start : Image where
  disk _ := zeroes
  length := 0
  freeinode := 1
  freeblock := nmeta

end Xv6.Mkfs
