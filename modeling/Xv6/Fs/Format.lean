import Mathlib.Logic.Function.Basic
import Xv6.Lib.LittleEndian
import Xv6.Param

/-!
# The format of a file system, `libs/fs.h`

A block is a function from offsets to bytes, of which those below `BSIZE`
exist.  A `short` of the format is kept as its sixteen bits.
-/

namespace Xv6.Fs

open Lib

/-- `BSIZE`. -/
def bsize : Nat := 512

/-- `ROOTINO`. -/
def rootino : Nat := 1

/-- `NDIRECT`. -/
def ndirect : Nat := 12

/-- `NINDIRECT`. -/
def nindirect : Nat := bsize / 4

/-- `MAXFILE`. -/
def maxfile : Nat := ndirect + nindirect

/-- `sizeof(struct dinode)`. -/
def dinodeSize : Nat := 64

/-- `IPB`. -/
def ipb : Nat := bsize / dinodeSize

/-- `BPB`. -/
def bpb : Nat := bsize * 8

/-- `DIRSIZ`. -/
def dirsiz : Nat := 14

/-- `sizeof(struct dirent)`. -/
def direntSize : Nat := 16

/-- `FSSIZE`. -/
def fssize : Nat := 1000

/-- `T_DIR`. -/
def tDir : UInt16 := 1

/-- `T_FILE`. -/
def tFile : UInt16 := 2

/-- `T_DEV`. -/
def tDev : UInt16 := 3

/-! ## Bytes -/

abbrev Bytes := Nat → UInt8

def zeroes : Bytes := fun _ => 0

/-- Copy `count` bytes of `source` to an offset of a block. -/
def patch (block : Bytes) (start count : Nat) (source : Nat → UInt8) : Bytes :=
  fun offset =>
    if start ≤ offset ∧ offset < start + count then source (offset - start)
    else block offset

/-- The bytes from an offset on. -/
def bytesFrom (block : Bytes) (start : Nat) : Nat → UInt8 :=
  fun offset => block (start + offset)

def ushort (bytes : Nat → UInt8) : UInt16 :=
  UInt16.ofNat (littleValue bytes 2)

def uint (bytes : Nat → UInt8) : UInt32 :=
  UInt32.ofNat (littleValue bytes 4)

/-- `((uint*)data)[index]`. -/
def word (block : Bytes) (index : Nat) : UInt32 :=
  uint (bytesFrom block (index * 4))

def putWord (block : Bytes) (index : Nat) (value : UInt32) : Bytes :=
  patch block (index * 4) 4 (littleByte value.toNat)

/-! ## The bitmap -/

/-- `1 << (bi % 8)`. -/
def mask (bi : Nat) : UInt8 := 1 <<< UInt8.ofNat (bi % 8)

/-- `(data[bi/8] & m) != 0`. -/
def bitSet (block : Bytes) (bi : Nat) : Bool :=
  block (bi / 8) &&& mask bi != 0

/-- `data[bi/8] |= m`. -/
def setBit (block : Bytes) (bi : Nat) : Bytes :=
  Function.update block (bi / 8) (block (bi / 8) ||| mask bi)

/-- `data[bi/8] &= ~m`. -/
def clearBit (block : Bytes) (bi : Nat) : Bytes :=
  Function.update block (bi / 8) (block (bi / 8) &&& ~~~ mask bi)

/-! ## Records -/

/-- `struct superblock`. -/
structure Superblock where
  size : UInt32
  nblocks : UInt32
  ninodes : UInt32
  nlog : UInt32
  logstart : UInt32
  inodestart : UInt32
  bmapstart : UInt32
  deriving DecidableEq

/-- `struct dinode`. -/
structure Dinode where
  type : UInt16
  major : UInt16
  minor : UInt16
  nlink : UInt16
  size : UInt32
  addrs : Fin (ndirect + 1) → UInt32

/-- `struct dirent`. -/
structure Dirent where
  inum : UInt16
  name : List UInt8
  deriving DecidableEq

def Superblock.decode (bytes : Nat → UInt8) : Superblock where
  size := uint (bytesFrom bytes 0)
  nblocks := uint (bytesFrom bytes 4)
  ninodes := uint (bytesFrom bytes 8)
  nlog := uint (bytesFrom bytes 12)
  logstart := uint (bytesFrom bytes 16)
  inodestart := uint (bytesFrom bytes 20)
  bmapstart := uint (bytesFrom bytes 24)

def Superblock.encode (sb : Superblock) : Nat → UInt8 := fun offset =>
  if offset < 4 then littleByte sb.size.toNat offset
  else if offset < 8 then littleByte sb.nblocks.toNat (offset - 4)
  else if offset < 12 then littleByte sb.ninodes.toNat (offset - 8)
  else if offset < 16 then littleByte sb.nlog.toNat (offset - 12)
  else if offset < 20 then littleByte sb.logstart.toNat (offset - 16)
  else if offset < 24 then littleByte sb.inodestart.toNat (offset - 20)
  else littleByte sb.bmapstart.toNat (offset - 24)

def Dinode.decode (bytes : Nat → UInt8) : Dinode where
  type := ushort (bytesFrom bytes 0)
  major := ushort (bytesFrom bytes 2)
  minor := ushort (bytesFrom bytes 4)
  nlink := ushort (bytesFrom bytes 6)
  size := uint (bytesFrom bytes 8)
  addrs i := uint (bytesFrom bytes (12 + i * 4))

def Dinode.encode (dinode : Dinode) : Nat → UInt8 := fun offset =>
  if offset < 2 then littleByte dinode.type.toNat offset
  else if offset < 4 then littleByte dinode.major.toNat (offset - 2)
  else if offset < 6 then littleByte dinode.minor.toNat (offset - 4)
  else if offset < 8 then littleByte dinode.nlink.toNat (offset - 6)
  else if offset < 12 then littleByte dinode.size.toNat (offset - 8)
  else
    littleByte (dinode.addrs (Fin.ofNat (ndirect + 1) ((offset - 12) / 4))).toNat
      ((offset - 12) % 4)

def Dirent.decode (bytes : Nat → UInt8) : Dirent where
  inum := ushort bytes
  name := (List.range dirsiz).map (bytesFrom bytes 2)

def Dirent.encode (de : Dirent) : Nat → UInt8 := fun offset =>
  if offset < 2 then littleByte de.inum.toNat offset
  else de.name.getD (offset - 2) 0

/-- The bytes of an entry. -/
def Dirent.bytes (de : Dirent) : List UInt8 :=
  (List.range direntSize).map de.encode

/-- `memset(dip, 0, sizeof(*dip))`. -/
def Dinode.zero : Dinode where
  type := 0
  major := 0
  minor := 0
  nlink := 0
  size := 0
  addrs _ := 0

/-- A zeroed inode with a type and a link count. -/
def Dinode.new (type nlink : UInt16) : Dinode where
  type := type
  major := 0
  minor := 0
  nlink := nlink
  size := 0
  addrs _ := 0

/-- `IBLOCK(i, sb)`. -/
def iblock (sb : Superblock) (inum : Nat) : Nat :=
  inum / ipb + sb.inodestart.toNat

/-- `BBLOCK(b, sb)`. -/
def bblock (sb : Superblock) (b : Nat) : Nat :=
  b / bpb + sb.bmapstart.toNat

/-- `(struct dinode*)data + inum%IPB`. -/
def dinodeStart (inum : Nat) : Nat := inum % ipb * dinodeSize

def getDinode (block : Bytes) (inum : Nat) : Dinode :=
  Dinode.decode (bytesFrom block (dinodeStart inum))

def putDinode (block : Bytes) (inum : Nat) (dinode : Dinode) : Bytes :=
  patch block (dinodeStart inum) dinodeSize dinode.encode

/-! ## Names -/

/-- `strncmp`.  A list of bytes stands for a string that ends with it. -/
def strncmp : Nat → List UInt8 → List UInt8 → Int
  | 0, _, _ => 0
  | n + 1, p, q =>
      if p.headD 0 ≠ 0 ∧ p.headD 0 = q.headD 0 then strncmp n p.tail q.tail
      else (p.headD 0).toNat - (q.headD 0).toNat

/-- `strncpy`. -/
def strncpy : Nat → List UInt8 → List UInt8
  | 0, _ => []
  | n + 1, t =>
      t.headD 0 ::
        (if t.headD 0 = 0 then List.replicate n 0 else strncpy n t.tail)

/-- `namecmp`. -/
def namecmp (s t : List UInt8) : Int := strncmp dirsiz s t

end Xv6.Fs
