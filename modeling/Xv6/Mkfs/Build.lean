import Xv6.Mkfs.Append

/-!
# The files of an image

`described` says what the inodes of an image hold after some files have been
put into it: the first one is the root directory with its entries, and behind
it come the files in their order.
-/

namespace Xv6.Mkfs

open Lib Fs

/-- An inode with a type, one link and some contents. -/
structure Is (s : Store) (x : Nat) (type : UInt16) (bytes : List UInt8) :
    Prop where
  type : (s.inode x).type = type
  nlink : (s.inode x).nlink = 1
  size : (s.inode x).size.toNat = bytes.length
  holds : Holds s x bytes

theorem Is.allocated {s : Store} {x : Nat} {bytes : List UInt8}
    (is : Is s x tFile bytes) : (s.inode x).allocated := by
  unfold Dinode.allocated
  rw [is.type]
  decide

theorem Is.congr {s s' : Store} {x : Nat} {type : UInt16}
    {bytes : List UInt8} (is : Is s x type bytes)
    (inode : s'.inode x = s.inode x)
    (address : ∀ p, s'.address (x, p) = s.address (x, p))
    (byte : ∀ k, k < maxfile * bsize → s'.byte x k = s.byte x k) :
    Is s' x type bytes := by
  refine ⟨?_, ?_, ?_, is.holds.fits, ?_, ?_, ?_⟩
  · rw [inode, is.type]
  · rw [inode, is.nlink]
  · rw [inode, is.size]
  · unfold Store.block
    intro bn short
    rw [address]
    exact is.holds.blocks bn short
  · rw [address]
    exact is.holds.indirect
  · intro k short
    rw [byte k short]
    exact is.holds.content k short

/-- An image whose inodes hold the given files. -/
structure Progress (image : Image) (file : Nat → UInt16 × List UInt8) :
    Prop where
  built : Built image (storeOf sb image.disk)
  last : image.freeblock ≤ fssize
  inodes : image.freeinode ≤ ninodes
  typed : ∀ x, 0 < x → x < image.freeinode → (file x).1 ≠ 0
  file : ∀ x, 0 < x → x < image.freeinode →
    Is (storeOf sb image.disk) x (file x).1 (file x).2
  unused : ∀ x, x = 0 ∨ image.freeinode ≤ x →
    (storeOf sb image.disk).inode x = Dinode.zero
  super : image.disk 1 = patch zeroes 0 28 sb.encode

namespace Progress

variable {image : Image} {file file' : Nat → UInt16 × List UInt8} {x : Nat}

theorem congr (progress : Progress image file)
    (same : ∀ x, 0 < x → x < image.freeinode → file' x = file x) :
    Progress image file' where
  built := progress.built
  last := progress.last
  inodes := progress.inodes
  typed x first later := by
    rw [same x first later]
    exact progress.typed x first later
  file x first later := by
    rw [same x first later]
    exact progress.file x first later
  unused := progress.unused
  super := progress.super

theorem iappend (progress : Progress image file) (first : 0 < x)
    (later : x < image.freeinode) (p : List UInt8) :
    wp (Mkfs.iappend x p)
      (fun _ after =>
        Progress after
          (Function.update file x ((file x).1, (file x).2 ++ p)) ∧
        after.freeinode = image.freeinode ∧
        after.freeblock + blocksOf (file x).2.length =
          image.freeblock + blocksOf ((file x).2 ++ p).length)
      (fun _ => Exceeds image.freeblock (file x).2.length
        ((file x).2 ++ p).length) image := by
  have is := progress.file x first later
  have inside : x < ninodes := lt_of_lt_of_le later progress.inodes
  have allocated : ((storeOf sb image.disk).inode x).allocated := by
    simpa [Dinode.allocated, is.type] using progress.typed x first later
  apply (iappend_spec inside progress.built progress.last allocated is.size
    is.holds).imp
  intro _ after grown
  refine ⟨?_, grown.freeinode, grown.freeblock⟩
  constructor
  case built => exact grown.built
  case last => exact grown.last
  case inodes =>
      rw [grown.freeinode]
      exact progress.inodes
  case typed =>
      intro y first' later'
      rw [grown.freeinode] at later'
      by_cases same : y = x
      · subst y
        rw [Function.update_self]
        exact progress.typed x first later
      · rw [Function.update_of_ne same]
        exact progress.typed y first' later'
  case file =>
      intro y first' later'
      rw [grown.freeinode] at later'
      by_cases same : y = x
      · subst y
        rw [Function.update_self]
        exact ⟨grown.type.trans is.type, grown.nlink.trans is.nlink,
          grown.size, grown.holds⟩
      · have other := progress.file y first' later'
        rw [Function.update_of_ne same]
        exact other.congr (grown.inode y same) (grown.address y same)
          (grown.byte y same)
  case unused =>
      intro y outside
      rw [grown.freeinode] at outside
      rw [grown.inode y (by omega)]
      exact progress.unused y outside
  case super => exact grown.super.trans progress.super

theorem ialloc (progress : Progress image file)
    (room : image.freeinode < ninodes) (first : 0 < image.freeinode)
    {type : UInt16} (typed : type ≠ 0) :
    wp (Mkfs.ialloc type)
      (fun x after => x = image.freeinode ∧
        Progress after
          (Function.update file image.freeinode (type, [])) ∧
        after.freeinode = image.freeinode + 1 ∧
        after.freeblock = image.freeblock)
      (fun _ => False) image := by
  have built := progress.built
  have free := progress.unused image.freeinode (Or.inr le_rfl)
  have nothing : ∀ p, (storeOf sb image.disk).address (image.freeinode, p) =
      0 := by
    apply Store.address_of_free
    rw [free]
    rfl
  unfold Mkfs.ialloc
  rw [wp_bind, wp_get, wp_bind, wp_set, wp_bind]
  refine wp_winode room built.length ?_
  rw [wp_pure]
  refine ⟨rfl, ?_, rfl, rfl⟩
  have store : storeOf sb (Function.update image.disk
      (iblock sb image.freeinode) (putDinode _ _ (Dinode.new type 1))) = _ :=
    storeOf_write_inode layout room _
  have address : ((storeOf sb image.disk).setInode image.freeinode
      (Dinode.new type 1)).address =
      (storeOf sb image.disk).address :=
    Store.address_setInode_empty nothing fun _ _ => rfl
  have byte := Store.byte_congr address rfl
  constructor
  case built =>
      rw [store]
      refine ⟨built.length, built.first, built.fresh, ?_⟩
      rw [address]
      exact built.owns
  case last => exact progress.last
  case inodes => exact room
  case typed =>
      intro y first' later
      by_cases same : y = image.freeinode
      · subst y
        rw [Function.update_self]
        exact typed
      · rw [Function.update_of_ne same]
        have later' : y < image.freeinode + 1 := later
        exact progress.typed y first' (by omega)
  case file =>
      intro y first' later
      have later' : y < image.freeinode + 1 := later
      rw [store]
      by_cases same : y = image.freeinode
      · subst y
        rw [Function.update_self]
        refine ⟨?_, ?_, ?_, Nat.zero_le _, ?_, ?_, ?_⟩
        · rw [Store.inode_setInode_self]
          rfl
        · rw [Store.inode_setInode_self]
          rfl
        · rw [Store.inode_setInode_self]
          rfl
        · intro bn _
          unfold Store.block
          rw [address, nothing]
          simp
        · rw [address, nothing]
          simp
        · intro k _
          unfold Store.byte Store.block
          rw [address, nothing, if_pos rfl]
          rfl
      · have other := progress.file y first' (by omega)
        rw [Function.update_of_ne same]
        exact other.congr (Store.inode_setInode_of_ne same _ _)
          (fun p => congrFun address (y, p)) fun k _ => byte y k
  case unused =>
      intro y outside
      have outside' : y = 0 ∨ image.freeinode + 1 ≤ y := outside
      rw [store, Store.inode_setInode_of_ne (by omega)]
      exact progress.unused y (by omega)
  case super =>
      dsimp only
      rw [disk_one_winode room]
      exact progress.super

/-- The loop over `read` appends the whole file. -/
theorem appendReads (progress : Progress image file) (first : 0 < x)
    (later : x < image.freeinode) (reads : List (List UInt8)) :
    wp (Mkfs.appendReads x reads)
      (fun _ after =>
        Progress after
          (Function.update file x ((file x).1, (file x).2 ++ reads.flatten)) ∧
        after.freeinode = image.freeinode ∧
        after.freeblock + blocksOf (file x).2.length =
          image.freeblock + blocksOf ((file x).2 ++ reads.flatten).length)
      (fun _ => Exceeds image.freeblock (file x).2.length
        ((file x).2 ++ reads.flatten).length) image := by
  induction reads generalizing image file with
  | nil =>
      unfold Mkfs.appendReads
      rw [wp_pure, List.flatten_nil, List.append_nil]
      refine ⟨?_, rfl, rfl⟩
      apply progress.congr
      intro y _ _
      rw [Function.update_eq_self]
  | cons buf rest induction =>
      unfold Mkfs.appendReads
      have more : ((file x).2 ++ buf).length ≤
          ((file x).2 ++ (buf :: rest).flatten).length := by
        simp only [List.length_append, List.flatten_cons]
        omega
      have blocks := blocksOf_mono more
      apply wp.bind ((progress.iappend first later buf).mono
        (fun _ _ => id) ?_)
      · intro _ middle ⟨progress', freeinode, freeblock⟩
        have rest' := induction progress' (by rw [freeinode]; exact later)
        rw [Function.update_self, Function.update_idem] at rest'
        rw [List.flatten_cons, ← List.append_assoc]
        apply rest'.mono
        · intro _ after ⟨progress'', freeinode', freeblock'⟩
          refine ⟨progress'', freeinode'.trans freeinode, ?_⟩
          dsimp only at freeblock'
          omega
        · intro _ exceeds
          rcases exceeds with long | full
          · exact Or.inl long
          · right
            dsimp only at full freeblock
            omega
      · intro _ exceeds
        rcases exceeds with long | full
        · left
          omega
        · right
          omega

end Progress

/-! ## The files that were put in -/

/-- The entry of a file in the root directory. -/
def entryOf (i : Nat) (input : Input) : Dirent :=
  ⟨UInt16.ofNat (i + 2), strncpy dirsiz (shortname input.path)⟩

def rootEntries (files : List Input) : List Dirent :=
  ⟨UInt16.ofNat rootino, strncpy dirsiz [46]⟩ ::
    ⟨UInt16.ofNat rootino, strncpy dirsiz [46, 46]⟩ :: files.mapIdx entryOf

def rootBytes (files : List Input) : List UInt8 :=
  (rootEntries files).flatMap Dirent.bytes

/-- What the inodes hold. -/
def described (files : List Input) (x : Nat) : UInt16 × List UInt8 :=
  if x = rootino then (tDir, rootBytes files)
  else (tFile, (files[x - 2]?.map Input.content).getD [])

/-- The blocks of an image with some files. -/
def total (files : List Input) : Nat :=
  nmeta + blocksOf (direntSize * (files.length + 2)) +
    (files.map fun input => blocksOf input.content.length).sum

/-- The files have usable paths and are short enough, and there are blocks for
all of them. -/
structure Fits (files : List Input) : Prop where
  paths : ∀ input ∈ files, slash ∈ input.path
  short : ∀ input ∈ files, input.content.length ≤ maxfile * bsize
  blocks : total files ≤ fssize

theorem rootEntries_concat (files : List Input) (input : Input) :
    rootEntries (files ++ [input]) =
      rootEntries files ++ [entryOf files.length input] := by
  simp [rootEntries, List.mapIdx_append]

theorem rootBytes_concat (files : List Input) (input : Input) :
    rootBytes (files ++ [input]) =
      rootBytes files ++ (entryOf files.length input).bytes := by
  simp [rootBytes, rootEntries_concat]

theorem length_rootBytes (files : List Input) :
    (rootBytes files).length = direntSize * (files.length + 2) := by
  have sizes : ∀ entries : List Dirent,
      (entries.flatMap Dirent.bytes).length = direntSize * entries.length := by
    intro entries
    induction entries with
    | nil => rfl
    | cons entry rest induction =>
        rw [List.flatMap_cons, List.length_append, induction,
          Dirent.length_bytes, List.length_cons, Nat.mul_succ, Nat.add_comm]
  rw [rootBytes, sizes]
  simp [rootEntries]

theorem described_root (files : List Input) :
    described files rootino = (tDir, rootBytes files) := if_pos rfl

theorem described_file {files : List Input} {i : Nat} {input : Input}
    (file : files[i]? = some input) :
    described files (i + 2) = (tFile, input.content) := by
  have different : i + 2 ≠ rootino := by
    unfold rootino
    omega
  unfold described
  rw [if_neg different, Nat.add_sub_cancel, file]
  rfl

theorem described_concat {files : List Input} {input : Input} {x : Nat}
    (first : 0 < x) (inside : x < files.length + 3) :
    described (files ++ [input]) x =
      Function.update
        (Function.update (described files) rootino
          (tDir, rootBytes files ++ (entryOf files.length input).bytes))
        (files.length + 2) (tFile, input.content) x := by
  by_cases last : x = files.length + 2
  · subst x
    rw [Function.update_self]
    apply described_file
    simp
  · rw [Function.update_of_ne last]
    by_cases root : x = rootino
    · subst x
      rw [Function.update_self, described_root, rootBytes_concat]
    · rw [Function.update_of_ne root]
      unfold described
      unfold rootino at root ⊢
      rw [if_neg root, if_neg root, List.getElem?_append_left (by omega)]

theorem total_concat (files : List Input) (input : Input) :
    total (files ++ [input]) +
        blocksOf (direntSize * (files.length + 2)) =
      total files + blocksOf (direntSize * (files.length + 3)) +
        blocksOf input.content.length := by
  have length : (files ++ [input]).length + 2 = files.length + 3 := by simp
  unfold total
  rw [length, List.map_append, List.sum_append]
  simp only [List.map_cons, List.map_nil, List.sum_cons, List.sum_nil]
  omega

theorem total_le_append (files rest : List Input) :
    total files ≤ total (files ++ rest) := by
  have more : blocksOf (direntSize * (files.length + 2)) ≤
      blocksOf (direntSize * ((files ++ rest).length + 2)) := by
    apply blocksOf_mono
    apply Nat.mul_le_mul_left
    simp
  unfold total
  rw [List.map_append, List.sum_append]
  omega

/-- The state of the loop over the arguments. -/
structure Added (image : Image) (files : List Input) : Prop where
  progress : Progress image (described files)
  freeinode : image.freeinode = files.length + 2
  freeblock : image.freeblock = total files

namespace Added

variable {image : Image} {files : List Input}

/-- One argument. -/
theorem addFile (added : Added image files)
    (room : files.length + 2 < ninodes) (input : Input) :
    wp (Mkfs.addFile rootino input)
      (fun _ after => Added after (files ++ [input]))
      (fun _ => ¬ Fits (files ++ [input])) image := by
  have freeinode := added.freeinode
  have freeblock := added.freeblock
  have sum := total_concat files input
  have root : (described files rootino).2.length =
      direntSize * (files.length + 2) := by
    rw [described_root, length_rootBytes]
  unfold Mkfs.addFile
  by_cases path : slash ∈ input.path
  · rw [if_pos path]
    apply wp.bind ((added.progress.ialloc (by omega) (by omega)
      (by decide : tFile ≠ 0)).mono (fun _ _ => id) (fun _ => False.elim))
    intro inum first ⟨number, progress, inodes, blocks⟩
    rw [freeinode] at number progress inodes
    subst inum
    have different : rootino ≠ files.length + 2 := by
      unfold rootino
      omega
    have whole : (rootBytes files ++
        (entryOf files.length input).bytes).length =
          direntSize * (files.length + 3) := by
      rw [← rootBytes_concat, length_rootBytes]
      simp
    unfold appendDirent
    have appended := progress.iappend (x := rootino) (by decide)
      (by unfold rootino; omega) (entryOf files.length input).bytes
    rw [Function.update_of_ne different, described_root] at appended
    dsimp only at appended
    rw [whole, length_rootBytes] at appended
    apply wp.bind (appended.mono (fun _ _ => id) ?_)
    · intro _ second ⟨progress', inodes', blocks'⟩
      have read := progress'.appendReads (x := files.length + 2) (by omega)
        (by omega) input.reads
      rw [Function.update_of_ne (Ne.symm different), Function.update_self]
        at read
      dsimp only at read
      rw [List.nil_append] at read
      apply read.mono
      · intro _ after ⟨progress'', inodes'', blocks''⟩
        refine ⟨?_, ?_, ?_⟩
        · apply progress''.congr
          intro x first' later
          rw [described_concat first' (by omega),
            Function.update_comm (Ne.symm different), Function.update_idem]
          rfl
        · simp
          omega
        · have none : blocksOf ([] : List UInt8).length = 0 := rfl
          change _ = _ + blocksOf input.content.length at blocks''
          omega
      · intro _ exceeds fits
        have short := fits.short input (by simp)
        have enough := fits.blocks
        have none : blocksOf ([] : List UInt8).length = 0 := rfl
        change Exceeds _ _ input.content.length at exceeds
        rcases exceeds with long | full
        · omega
        · omega
    · intro _ exceeds fits
      have enough := fits.blocks
      rcases exceeds with long | full
      · have bound : direntSize * (files.length + 3) ≤ maxfile * bsize := by
          unfold ninodes at room
          unfold direntSize maxfile ndirect nindirect bsize
          omega
        omega
      · omega
  · rw [if_neg path, wp_throw]
    intro fits
    exact path (fits.paths input (by simp))

/-- All arguments. -/
theorem addFiles (added : Added image files) (rest : List Input)
    (room : (files ++ rest).length + 1 < ninodes) :
    wp (Mkfs.addFiles rootino rest)
      (fun _ after => Added after (files ++ rest))
      (fun _ => ¬ Fits (files ++ rest)) image := by
  induction rest generalizing image files with
  | nil =>
      unfold Mkfs.addFiles
      rw [wp_pure, List.append_nil]
      exact added
  | cons input rest induction =>
      have whole : files ++ input :: rest = (files ++ [input]) ++ rest := by
        simp
      have fewer : files.length + 2 < ninodes := by
        rw [List.length_append, List.length_cons] at room
        omega
      unfold Mkfs.addFiles
      rw [whole] at room ⊢
      apply wp.bind ((added.addFile fewer input).mono
        (fun _ _ => id) ?_)
      · intro _ after added'
        exact induction added' room
      · intro _ misfit fits
        apply misfit
        refine ⟨?_, ?_, ?_⟩
        · intro other member
          exact fits.paths other (List.mem_append_left _ member)
        · intro other member
          exact fits.short other (List.mem_append_left _ member)
        · exact le_trans (total_le_append _ _) fits.blocks

end Added

/-! ## The empty image -/

theorem zeroSectors_spec {image : Image} {k : Nat}
    (zero : image.disk = fun _ => zeroes) (length : image.length = k)
    (n : Nat) :
    wp (zeroSectors (List.range' k n))
      (fun _ after => after = { image with length := k + n })
      (fun _ => False) image := by
  induction n generalizing image k with
  | zero =>
      subst k
      rw [List.range'_zero]
      unfold zeroSectors
      rw [wp_pure]
      rfl
  | succ n induction =>
      rw [List.range'_succ]
      unfold zeroSectors
      rw [wp_bind, wp_wsect]
      have same : Function.update image.disk k zeroes = image.disk := by
        rw [Function.update_eq_self_iff, zero]
      have longer : max image.length (k + 1) = k + 1 := by omega
      rw [same, longer]
      refine wp.imp (induction ?_ rfl) ?_
      · exact zero
      intro _ after result
      rw [result, Nat.add_assoc, Nat.add_comm 1]

/-- The image before the root directory is made. -/
def blank : Image where
  disk := Function.update (fun _ => zeroes) 1 (patch zeroes 0 28 sb.encode)
  length := fssize
  freeinode := 1
  freeblock := nmeta

theorem disk_blank : blank.disk =
    Function.update (fun _ => zeroes) 1 (patch zeroes 0 28 sb.encode) := rfl

theorem progress_blank (file : Nat → UInt16 × List UInt8) :
    Progress blank file := by
  have zero : ∀ b, b ≠ 1 → blank.disk b = zeroes := by
    intro b different
    rw [disk_blank, Function.update_of_ne different]
  have inode : (storeOf sb blank.disk).inode = fun _ => Dinode.zero := by
    funext x
    unfold storeOf
    dsimp only
    split
    · rename_i inside
      have region := (layout.iblock_lt inside).1
      have start : sb.inodestart.toNat = 32 := rfl
      rw [zero _ (by omega), getDinode_zeroes]
    · rfl
  have data : (storeOf sb blank.disk).data = fun _ => zeroes := by
    funext b
    unfold storeOf
    dsimp only
    split
    · rename_i inside
      have start : nmeta = 59 := rfl
      rw [datastart_sb] at inside
      exact zero b (by omega)
    · rfl
  have address : ∀ owner, (storeOf sb blank.disk).address owner = 0 := by
    intro owner
    apply Store.address_of_free
    rw [inode]
    rfl
  constructor
  case built =>
      refine ⟨rfl, le_rfl, fun b _ => by rw [data], ?_⟩
      constructor
      · decide
      · exact fun owner nonzero => (nonzero (address owner)).elim
      · exact fun owner nonzero => (nonzero (address owner)).elim
      · exact fun owner _ nonzero => (nonzero (address owner)).elim
      · intro b inside marked
        have marked' : b < nmeta := marked
        omega
  case last => decide
  case inodes => decide
  case typed =>
      intro x first later
      have later' : x < 1 := later
      omega
  case file =>
      intro x first later
      have later' : x < 1 := later
      omega
  case unused =>
      intro x _
      rw [inode]
  case super => rw [disk_blank, Function.update_self]

theorem makeRoot_spec :
    wp makeRoot (fun root after => root = rootino ∧ Added after [])
      (fun _ => False) Image.start := by
  have zeroed := @zeroSectors_spec Image.start 0 rfl rfl fssize
  rw [← List.range_eq_range'] at zeroed
  unfold makeRoot
  refine wp.bind zeroed ?_
  intro _ image result
  rw [wp_bind, wp_wsect]
  have start : ({ image with
      disk := Function.update image.disk 1 (patch zeroes 0 28 sb.encode)
      length := max image.length (1 + 1) } : Image) = blank := by
    rw [result]
    have long : max (0 + fssize) (1 + 1) = fssize := by decide
    rw [long]
    rfl
  rw [start]
  apply wp.bind ((progress_blank fun _ => (0, [])).ialloc (by decide)
    (by decide) (by decide : tDir ≠ 0))
  intro root first ⟨number, progress, inodes, blocks⟩
  have number' : root = rootino := number
  rw [if_pos number']
  subst root
  unfold appendDirent
  have one := progress.iappend (x := rootino) (by decide)
    (by rw [inodes]; decide)
    (Dirent.bytes ⟨UInt16.ofNat rootino, strncpy dirsiz [46]⟩)
  rw [show blank.freeinode = rootino from rfl, Function.update_self,
    Function.update_idem] at one
  dsimp only at one
  rw [List.nil_append, Dirent.length_bytes, blocks] at one
  apply wp.bind (one.mono (fun _ _ => id) ?_)
  · intro _ second ⟨progress', inodes', blocks'⟩
    have two := progress'.iappend (x := rootino) (by decide)
      (by rw [inodes', inodes]; decide)
      (Dirent.bytes ⟨UInt16.ofNat rootino, strncpy dirsiz [46, 46]⟩)
    rw [Function.update_self, Function.update_idem] at two
    dsimp only at two
    rw [List.length_append, Dirent.length_bytes, Dirent.length_bytes] at two
    have counted : second.freeblock = 60 := blocks'
    rw [counted] at two
    apply wp.bind (two.mono (fun _ _ => id) ?_)
    · intro _ third ⟨progress'', inodes'', blocks''⟩
      rw [wp_pure]
      refine ⟨rfl, ?_, ?_, ?_⟩
      · apply progress''.congr
        intro x first' later
        have same : x = rootino := by
          rw [inodes'', inodes', inodes] at later
          have later' : x < 2 := later
          unfold rootino
          omega
        subst x
        rw [Function.update_self, described_root]
        simp [rootBytes, rootEntries]
      · rw [inodes'', inodes', inodes]
        rfl
      · have empty : total [] = 60 := rfl
        have before : blocksOf direntSize = 1 := rfl
        have behind : blocksOf (direntSize + direntSize) = 1 := rfl
        omega
    · intro _ exceeds
      revert exceeds
      unfold Exceeds
      decide
  · intro _ exceeds
    revert exceeds
    unfold Exceeds
    decide

/-! ## The whole image -/

theorem bitSet_foldl_setBit (used b : Nat) :
    bitSet ((List.range used).foldl setBit zeroes) b = decide (b < used) := by
  induction used with
  | zero =>
      simp [bitSet, zeroes]
  | succ used induction =>
      rw [List.range_succ, List.foldl_append]
      change bitSet (setBit _ used) b = _
      rw [bitSet_setBit, induction, ← Bool.decide_or, decide_eq_decide]
      omega

/-- An image that `mkfs` has made. -/
structure Made (files : List Input) (image : Image) : Prop where
  owns : Owns (nmeta ≤ ·) (· < image.freeblock) (storeOf sb image.disk).address
  last : image.freeblock ≤ fssize
  freeblock : image.freeblock = total files
  bitmap : image.disk sb.bmapstart.toNat =
    (List.range image.freeblock).foldl setBit zeroes
  rootType : ((storeOf sb image.disk).inode rootino).type = tDir
  rootNlink : ((storeOf sb image.disk).inode rootino).nlink = 1
  rootSize : ((storeOf sb image.disk).inode rootino).size.toNat =
    ((rootBytes files).length / bsize + 1) * bsize
  root : Holds (storeOf sb image.disk) rootino (rootBytes files)
  file : ∀ i input, files[i]? = some input →
    Is (storeOf sb image.disk) (i + 2) tFile input.content
  unused : ∀ x, x = 0 ∨ files.length + 2 ≤ x →
    (storeOf sb image.disk).inode x = Dinode.zero
  super : image.disk 1 = patch zeroes 0 28 sb.encode

/-- What `main` does behind the loop over the arguments. -/
def finish : Build Unit := do
  fixRoot rootino
  let image ← get
  balloc image.freeblock

theorem finish_spec {files : List Input} {image : Image}
    (added : Added image files) :
    wp finish (fun _ after => Made files after) (fun _ => False) image := by
  have progress := added.progress
  have built := progress.built
  have inside : rootino < ninodes := by decide
  have is := progress.file rootino (by decide)
    (by rw [added.freeinode]; unfold rootino; omega)
  rw [described_root] at is
  unfold finish fixRoot
  rw [bind_assoc, wp_bind]
  apply wp_rinode inside built.length
  rw [wp_bind]
  apply wp_winode inside built.length
  rw [wp_bind, wp_get]
  have used : image.freeblock < bsize * 8 :=
    lt_of_le_of_lt progress.last (by decide)
  unfold balloc
  rw [if_pos used, wp_wsect]
  generalize sized : ({ (storeOf sb image.disk).inode rootino with
    size := UInt32.ofNat
      ((((storeOf sb image.disk).inode rootino).size.toNat / bsize + 1) *
        bsize) } : Dinode) = dinode
  have store : storeOf sb (Function.update
      (Function.update image.disk (iblock sb rootino)
        (putDinode (image.disk (iblock sb rootino)) rootino dinode))
      sb.bmapstart.toNat
      ((List.range image.freeblock).foldl setBit zeroes)) =
      (storeOf sb image.disk).setInode rootino dinode := by
    have first : bblock sb 0 = sb.bmapstart.toNat := rfl
    rw [← first, storeOf_write_bitmap layout (by decide),
      storeOf_write_inode layout inside]
  have address : ((storeOf sb image.disk).setInode rootino dinode).address =
      (storeOf sb image.disk).address := by
    subst dinode
    exact Store.address_resize (storeOf sb image.disk) rootino _
  have byte := Store.byte_congr address rfl
  constructor
  case owns =>
      rw [store, address]
      exact built.owns
  case last => exact progress.last
  case freeblock => exact added.freeblock
  case bitmap =>
      dsimp only
      rw [Function.update_self]
  case rootType =>
      rw [store, Store.inode_setInode_self, ← sized]
      exact is.type
  case rootNlink =>
      rw [store, Store.inode_setInode_self, ← sized]
      exact is.nlink
  case rootSize =>
      have size : ((storeOf sb image.disk).inode rootino).size.toNat =
          (rootBytes files).length := is.size
      have short : (rootBytes files).length ≤ maxfile * bsize := is.holds.fits
      rw [store, Store.inode_setInode_self, ← sized, size]
      apply UInt32.toNat_ofNat_of_lt'
      unfold maxfile ndirect nindirect bsize at short
      unfold bsize UInt32.size
      omega
  case root =>
      rw [store]
      refine ⟨is.holds.fits, ?_, ?_, ?_⟩
      · unfold Store.block
        rw [address]
        exact is.holds.blocks
      · rw [address]
        exact is.holds.indirect
      · intro k short
        rw [byte]
        exact is.holds.content k short
  case file =>
      intro i input found
      have short : i < files.length := by
        by_contra long
        rw [List.getElem?_eq_none (by omega)] at found
        cases found
      have other := progress.file (i + 2) (by omega)
        (by rw [added.freeinode]; omega)
      rw [described_file found] at other
      have different : i + 2 ≠ rootino := by
        unfold rootino
        omega
      rw [store]
      exact other.congr (Store.inode_setInode_of_ne different _ _)
        (fun p => congrFun address (i + 2, p)) fun k _ => byte (i + 2) k
  case unused =>
      intro x outside
      have different : x ≠ rootino := by
        unfold rootino
        omega
      rw [store, Store.inode_setInode_of_ne different]
      apply progress.unused
      rw [added.freeinode]
      exact outside
  case super =>
      dsimp only
      rw [Function.update_of_ne (by decide), disk_one_winode inside]
      exact progress.super

/-- `mkfs` makes an image if the files fit. -/
theorem main_spec {files : List Input} (few : files.length + 1 < ninodes) :
    wp (main files) (fun _ after => Made files after)
      (fun _ => ¬ Fits files) Image.start := by
  unfold main
  refine wp.bind (makeRoot_spec.mono (fun _ _ => id) fun _ => False.elim) ?_
  intro root first ⟨number, added⟩
  subst root
  have all := added.addFiles files few
  rw [List.nil_append] at all
  refine wp.bind all ?_
  intro _ image added
  exact (finish_spec added).mono (fun _ _ => id) fun _ => False.elim

end Xv6.Mkfs
