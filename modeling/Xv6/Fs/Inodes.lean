import Xv6.Fs.Format
import Xv6.Lib.Program

/-!
# Blocks and inodes, `kernel/fs.c`

System calls run one after the other, and the disk is what the buffer cache
shows of it.  A pointer to a cached inode is the number of that inode, since
`iget` never uses two slots for one inode, and `icache` lists the slots that
are in use.  A second `acquiresleep` of one lock waits for ever.  `FSSIZE` is
a parameter of the build and so part of the state.

The loops that copy add to `off` what `off + n` was tested to admit, so that
their additions do not wrap.
-/

namespace Xv6.Fs

open Lib

/-- `NINODE`. -/
def ninode : Nat := 50

/-- `NDEV`. -/
def ndev : Nat := 10

/-- `struct inode`. -/
structure Inode where
  inum : Nat
  ref : Nat
  locked : Bool
  valid : Bool
  dinode : Dinode

/-- What a driver answers.  `none` is `-1`. -/
structure Driver where
  read : Nat → Option (List UInt8)
  write : List UInt8 → Int

/-- What the system calls did with the log: how often they called `begin_op`,
and the blocks that they passed to `log_write`, in the open section and in
those that `end_op` closed. -/
structure Journal where
  begun : Nat
  logged : List Nat
  ended : List (List Nat)

/-- The disk, `icache`, `devsw`, the limit of `iderw` and the log. -/
structure State where
  disk : Nat → Bytes
  icache : List Inode
  devsw : Nat → Option Driver
  fssize : Nat
  journal : Journal

abbrev Code := Program State Fault

def panic {α : Type} (message : String) : Code α := throw (.panic message)

/-! ## Blocks -/

/-- `bread` for a block whose contents are used, with the check of `iderw`. -/
def bread (blockno : Nat) : Code Bytes := do
  let state ← get
  if blockno < state.fssize then pure (state.disk blockno)
  else panic "iderw: block out of range"

/-- `begin_op`. -/
def beginOp : Code Unit :=
  modify fun state =>
    { state with
      journal := { state.journal with begun := state.journal.begun + 1 } }

/-- `end_op`. -/
def endOp : Code Unit :=
  modify fun state =>
    { state with
      journal :=
        { state.journal with
          logged := []
          ended := state.journal.logged :: state.journal.ended } }

/-- Change a buffer, `log_write` and `brelse`. -/
def logWrite (blockno : Nat) (data : Bytes) : Code Unit :=
  modify fun state =>
    { state with
      disk := Function.update state.disk blockno data
      journal :=
        { state.journal with logged := blockno :: state.journal.logged } }

/-- `bzero`. -/
def bzero (bno : Nat) : Code Unit := do
  let _ ← bread bno
  logWrite bno zeroes

section Disk

variable (sb : Superblock)

/-- The loop of `balloc` over the blocks of the bitmap. -/
def ballocLoop : List Nat → Code Nat
  | [] => panic "balloc: out of blocks"
  | b :: rest => do
      let data ← bread (bblock sb b)
      let free := (List.range (min bpb (sb.size.toNat - b))).find? fun bi =>
        !bitSet data bi
      match free with
      | some bi => do
          logWrite (bblock sb b) (setBit data bi)
          bzero (b + bi)
          pure (b + bi)
      | none => ballocLoop rest

/-- `balloc`. -/
def balloc : Code Nat :=
  ballocLoop sb
    ((List.range ((sb.size.toNat + bpb - 1) / bpb)).map fun i => i * bpb)

/-- `bfree`. -/
def bfree (b : Nat) : Code Unit := do
  let data ← bread (bblock sb b)
  let bi := b % bpb
  if bitSet data bi then logWrite (bblock sb b) (clearBit data bi)
  else panic "freeing free block"

/-! ## Cached inodes -/

/-- The slot of an inode. -/
def State.cached (state : State) (inum : Nat) : Option Inode :=
  state.icache.find? fun ip => ip.inum = inum

/-- Read a field of `*ip`. -/
def fetch (inum : Nat) : Code Inode := do
  let state ← get
  match state.cached inum with
  | some ip => pure ip
  | none => throw .nullDereference

/-- Change `*ip`. -/
def assign (inum : Nat) (change : Inode → Inode) : Code Unit :=
  modify fun state =>
    { state with
      icache := state.icache.map fun ip =>
        if ip.inum = inum then change ip else ip }

/-- Change the copy of the disk inode in `*ip`. -/
def setDinode (inum : Nat) (change : Dinode → Dinode) : Code Unit :=
  assign inum fun ip => { ip with dinode := change ip.dinode }

/-- `iget`. -/
def iget (inum : Nat) : Code Nat := do
  let state ← get
  match state.cached inum with
  | some _ => do
      assign inum fun ip => { ip with ref := ip.ref + 1 }
      pure inum
  | none =>
      if state.icache.length < ninode then do
        let ip : Inode := ⟨inum, 1, false, false, Dinode.zero⟩
        set { state with icache := state.icache ++ [ip] }
        pure inum
      else panic "iget: no inodes"

/-- The loop of `ialloc`. -/
def iallocLoop (type : UInt16) : List Nat → Code Nat
  | [] => panic "ialloc: no inodes"
  | inum :: rest => do
      let data ← bread (iblock sb inum)
      if (getDinode data inum).type = 0 then do
        logWrite (iblock sb inum) (putDinode data inum (Dinode.new type 0))
        iget inum
      else iallocLoop type rest

/-- `ialloc`. -/
def ialloc (type : UInt16) : Code Nat :=
  iallocLoop sb type (List.range' 1 (sb.ninodes.toNat - 1))

/-- `iupdate`. -/
def iupdate (inum : Nat) : Code Unit := do
  let data ← bread (iblock sb inum)
  let ip ← fetch inum
  logWrite (iblock sb inum) (putDinode data inum ip.dinode)

/-- `idup`. -/
def idup (inum : Nat) : Code Nat := do
  let _ ← fetch inum
  assign inum fun ip => { ip with ref := ip.ref + 1 }
  pure inum

/-- `acquiresleep(&ip->lock)`. -/
def acquiresleep (inum : Nat) : Code Unit := do
  let ip ← fetch inum
  if ip.locked then throw .hang
  else assign inum fun ip => { ip with locked := true }

/-- `releasesleep(&ip->lock)`. -/
def releasesleep (inum : Nat) : Code Unit :=
  assign inum fun ip => { ip with locked := false }

/-- Read `*ip` from the disk, in `ilock`. -/
def iload (inum : Nat) : Code Unit := do
  let data ← bread (iblock sb inum)
  let dinode := getDinode data inum
  assign inum fun ip => { ip with dinode := dinode, valid := true }
  if dinode.type = 0 then panic "ilock: no type" else pure ()

/-- `ilock`. -/
def ilock (inum : Nat) : Code Unit := do
  let state ← get
  if (state.cached inum).isSome then do
    acquiresleep inum
    let ip ← fetch inum
    if ip.valid then pure () else iload sb inum
  else panic "ilock"

/-- `iunlock`. -/
def iunlock (inum : Nat) : Code Unit := do
  let state ← get
  match state.cached inum with
  | some ip =>
      if ip.locked then releasesleep inum else panic "iunlock"
  | none => panic "iunlock"

/-! ## The blocks of an inode -/

/-- `if((addr = ip->addrs[i]) == 0) ip->addrs[i] = addr = balloc(ip->dev)`. -/
def bmapSlot (inum : Nat) (i : Fin (ndirect + 1)) : Code Nat := do
  let ip ← fetch inum
  if ip.dinode.addrs i = 0 then do
    let addr ← balloc sb
    setDinode inum fun dinode =>
      { dinode with
        addrs := Function.update dinode.addrs i (UInt32.ofNat addr) }
    pure addr
  else pure (ip.dinode.addrs i).toNat

/-- `bmap`. -/
def bmap (inum bn : Nat) : Code Nat :=
  if inside : bn < ndirect then bmapSlot sb inum ⟨bn, by omega⟩
  else if bn - ndirect < nindirect then do
    let indirect ← bmapSlot sb inum (Fin.last ndirect)
    let data ← bread indirect
    if word data (bn - ndirect) = 0 then do
      let addr ← balloc sb
      let data ← bread indirect
      logWrite indirect (putWord data (bn - ndirect) (UInt32.ofNat addr))
      pure addr
    else pure (word data (bn - ndirect)).toNat
  else panic "bmap: out of range"

/-- `if(addr) bfree(ip->dev, addr)`. -/
def bfreeUsed (addr : UInt32) : Code Unit :=
  if addr = 0 then pure () else bfree sb addr.toNat

def clearSlot (inum : Nat) (i : Fin (ndirect + 1)) : Code Unit :=
  setDinode inum fun dinode =>
    { dinode with addrs := Function.update dinode.addrs i 0 }

/-- The first loop of `itrunc`. -/
def itruncDirect (inum : Nat) : List (Fin (ndirect + 1)) → Code Unit
  | [] => pure ()
  | i :: rest => do
      let ip ← fetch inum
      bfreeUsed sb (ip.dinode.addrs i)
      clearSlot inum i
      itruncDirect inum rest

/-- The second loop of `itrunc`. -/
def itruncEntries (data : Bytes) : List Nat → Code Unit
  | [] => pure ()
  | j :: rest => do
      bfreeUsed sb (word data j)
      itruncEntries data rest

/-- The part of `itrunc` for `ip->addrs[NDIRECT]`. -/
def itruncIndirect (inum : Nat) : Code Unit := do
  let ip ← fetch inum
  let addr := ip.dinode.addrs (Fin.last ndirect)
  if addr = 0 then pure ()
  else do
    let data ← bread addr.toNat
    itruncEntries sb data (List.range nindirect)
    bfree sb addr.toNat
    clearSlot inum (Fin.last ndirect)

/-- `itrunc`. -/
def itrunc (inum : Nat) : Code Unit := do
  itruncDirect sb inum ((List.finRange ndirect).map Fin.castSucc)
  itruncIndirect sb inum
  setDinode inum fun dinode => { dinode with size := 0 }
  iupdate sb inum

/-- Free an inode, in `iput`. -/
def ifree (inum : Nat) : Code Unit := do
  itrunc sb inum
  setDinode inum fun dinode => { dinode with type := 0 }
  iupdate sb inum
  assign inum fun ip => { ip with valid := false }

/-- `ip->ref--`.  A slot without references is not in use. -/
def unref (inum : Nat) : Code Unit :=
  modify fun state =>
    { state with
      icache := (state.icache.map fun ip =>
        if ip.inum = inum then { ip with ref := ip.ref - 1 } else ip).filter
          fun ip => ip.ref ≠ 0 }

/-- `iput`. -/
def iput (inum : Nat) : Code Unit := do
  acquiresleep inum
  let ip ← fetch inum
  (if ip.valid = true ∧ ip.dinode.nlink = 0 ∧ ip.ref = 1 then ifree sb inum
   else pure ())
  releasesleep inum
  unref inum

/-- `iunlockput`. -/
def iunlockput (inum : Nat) : Code Unit := do
  iunlock inum
  iput sb inum

/-! ## Contents -/

/-- `ip->major < 0 || ip->major >= NDEV || !devsw[ip->major].read`. -/
def driver (state : State) (major : UInt16) : Option Driver :=
  if major.toNat < ndev then state.devsw major.toNat else none

/-- The loop of `readi`. -/
def readiLoop (inum : Nat) : Nat → Nat → Nat → Code (List UInt8)
  | 0, _, _ => pure []
  | fuel + 1, off, n =>
      if n = 0 then pure []
      else do
        let addr ← bmap sb inum (off / bsize)
        let data ← bread addr
        let m := min n (bsize - off % bsize)
        let rest ← readiLoop inum fuel (off + m) (n - m)
        pure ((List.range m).map (bytesFrom data (off % bsize)) ++ rest)

/-- `readi`, with the bytes that it copies.  `none` is `-1`. -/
def readi (inum off n : Nat) : Code (Option (List UInt8)) := do
  let ip ← fetch inum
  if ip.dinode.type = tDev then do
    let state ← get
    pure ((driver state ip.dinode.major).bind fun driver => driver.read n)
  else
    let size := ip.dinode.size.toNat
    if off > size ∨ uintAdd off n < off then pure none
    else do
      let n := if uintAdd off n > size then size - off else n
      let bytes ← readiLoop sb inum n off n
      pure (some bytes)

/-- The loop of `writei`. -/
def writeiLoop (inum : Nat) : Nat → List UInt8 → Nat → Code Unit
  | 0, _, _ => pure ()
  | fuel + 1, src, off =>
      if src.length = 0 then pure ()
      else do
        let addr ← bmap sb inum (off / bsize)
        let data ← bread addr
        let m := min src.length (bsize - off % bsize)
        logWrite addr (patch data (off % bsize) m fun k => src.getD k 0)
        writeiLoop inum fuel (src.drop m) (off + m)

/-- `ip->size = off; iupdate(ip)`. -/
def grow (inum off : Nat) : Code Unit := do
  setDinode inum fun dinode => { dinode with size := UInt32.ofNat off }
  iupdate sb inum

/-- `writei`, for `n` bytes at `src`. -/
def writei (inum : Nat) (src : List UInt8) (off : Nat) : Code Int := do
  let ip ← fetch inum
  let n := src.length
  if ip.dinode.type = tDev then do
    let state ← get
    match driver state ip.dinode.major with
    | some driver => pure (driver.write src)
    | none => pure (-1)
  else if off > ip.dinode.size.toNat ∨ uintAdd off n < off then pure (-1)
  else if uintAdd off n > maxfile * bsize then pure (-1)
  else do
    writeiLoop sb inum n src off
    (if n > 0 ∧ off + n > ip.dinode.size.toNat then grow sb inum (off + n)
     else pure ())
    pure n

end Disk

end Xv6.Fs
