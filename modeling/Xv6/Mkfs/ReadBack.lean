import Xv6.Fs.Paths

/-!
# Reading an image back

The kernel finds every file that `mkfs` has put into the root directory under
its short name, and reads what it held.  It finds the entry before it comes to
a block that the size of the root directory covers and that does not exist.
-/

namespace Xv6.Mkfs

open Lib Fs

/-! ## Names -/

theorem strncmp_eq_zero_iff (n : Nat) (s t : List UInt8) :
    strncmp n s t = 0 ↔ strncpy n s = strncpy n t := by
  induction n generalizing s t with
  | zero => exact iff_of_true rfl rfl
  | succ n ih =>
      unfold strncmp strncpy
      rw [List.cons.injEq]
      by_cases same : s.headD 0 = t.headD 0
      · rw [same]
        by_cases nul : t.headD 0 = 0
        · simp only [nul, if_true, and_true, not_true, ne_eq,
            if_false, sub_self]
        · rw [if_pos ⟨nul, rfl⟩, if_neg nul, if_neg nul, ih]
          exact (and_iff_right rfl).symm
      · have different : (s.headD 0).toNat ≠ (t.headD 0).toNat :=
          fun equal => same (UInt8.toNat_inj.mp equal)
        rw [if_neg fun both => same both.2]
        constructor
        · intro zero
          omega
        · exact fun both => absurd both.1 same

theorem strncpy_strncpy (n : Nat) (t : List UInt8) :
    strncpy n (strncpy n t) = strncpy n t := by
  induction n generalizing t with
  | zero => rfl
  | succ n ih =>
      rw [strncpy, strncpy, List.headD_cons, List.tail_cons]
      split
      · rfl
      · rw [ih]

/-- A name is compared with the copy of a name in an entry. -/
theorem namecmp_strncpy (s t : List UInt8) :
    namecmp s (strncpy dirsiz t) = 0 ↔ namecmp s t = 0 := by
  unfold namecmp
  rw [strncmp_eq_zero_iff, strncmp_eq_zero_iff, strncpy_strncpy]

/-- The short names are not `.` or `..`, and no two of them start with the
same `DIRSIZ` bytes. -/
structure Named (files : List Input) : Prop where
  dot : ∀ input ∈ files, namecmp (shortname input.path) Fs.dot ≠ 0
  dotdot : ∀ input ∈ files, namecmp (shortname input.path) Fs.dotdot ≠ 0
  distinct : files.Pairwise fun input other =>
    namecmp (shortname other.path) (shortname input.path) ≠ 0

/-! ## Looking up and reading -/

/-- A kernel that runs on an image, between two system calls, and can cache
one more inode. -/
structure Mounted (image : Image) (state : State) : Prop where
  settled : Settled sb state
  disk : state.disk = image.disk
  unlocked : state.locks = fun _ => false
  root : state.refs rootino ≠ 0
  room : state.icache.length < ninode

/-- Look a name up in the root directory, and read the whole file: its size,
and what `readi` returns. -/
def readBack (name : List UInt8) : Code (Option (Nat × Option (List UInt8))) :=
  do
    ilock sb rootino
    let found ← dirlookup sb rootino name
    match found with
    | none => pure none
    | some (inum, _) => do
        ilock sb inum
        let ip ← fetch inum
        let bytes ← readi sb inum 0 ip.dinode.size.toNat
        pure (some (ip.dinode.size.toNat, bytes))

namespace Made

variable {files : List Input} {image : Image} {input : Input} {i : Nat}
  (few : files.length + 1 < ninodes) (made : Made files image)

include few made

omit few in
theorem mounted : Mounted image (booted image) where
  settled := made.settled
  disk := rfl
  unlocked := locks_booted
  root := refs_booted
  room := by
    change 1 < ninode
    decide

theorem readable (inside : i < files.length + 2) :
    (storeOf sb image.disk).Readable rootino i := by
  have small : ninodes = 200 := rfl
  have size := made.rootSize
  rw [length_rootBytes] at size
  have last : i * direntSize + direntSize ≤
      ((storeOf sb image.disk).inode rootino).size.toNat := by
    rw [size]
    unfold direntSize bsize
    omega
  refine ⟨last, ?_, ?_⟩
  · intro bn member
    have below := (mem_indices.mp member).2.2
    have short : bn < maxfile := by
      unfold maxfile ndirect nindirect bsize direntSize at *
      omega
    refine ⟨short, ?_⟩
    rw [Ne, made.root.blocks bn short, length_rootBytes]
    unfold direntSize bsize at *
    omega
  · intro live
    have counted : i < (storeOf sb image.disk).direntCount rootino := by
      unfold Store.direntCount direntSize at *
      omega
    obtain ⟨below, some⟩ := made.dirent_inum few counted live
    exact (made.inode some below).1

/-- The entry of a file, and no entry before it, has its name. -/
theorem findSome?_entryAt (named : Named files)
    (found : files[i]? = some input) :
    (List.range (i + 3)).findSome? ((storeOf sb image.disk).entryAt rootino
      (shortname input.path)) = some (i + 2, (i + 2) * direntSize) := by
  have small : ninodes = 200 := rfl
  obtain ⟨inside, rfl⟩ := List.getElem?_eq_some_iff.mp found
  have limit : ∀ j, j < i + 3 → j < maxfile * bsize / direntSize := by
    intro j less
    unfold maxfile ndirect nindirect bsize direntSize
    omega
  have others : ∀ j ∈ List.range (i + 2),
      (storeOf sb image.disk).entryAt rootino (shortname files[i].path) j =
        none := by
    intro j member
    have less := List.mem_range.mp member
    unfold Store.entryAt
    rw [made.dirent (limit j (by omega))]
    apply if_neg
    rintro ⟨_, same⟩
    have own := List.getElem_mem inside
    match j with
    | 0 => exact named.dot _ own ((namecmp_strncpy _ _).mp same)
    | 1 => exact named.dotdot _ own ((namecmp_strncpy _ _).mp same)
    | j + 2 =>
        have before : j < files.length := by omega
        rw [List.getD_eq_getElem?_getD] at same
        simp only [rootEntries, List.getElem?_cons_succ, List.getElem?_mapIdx,
          List.getElem?_eq_getElem before, Option.map_some,
          Option.getD_some] at same
        exact List.pairwise_iff_getElem.mp named.distinct j i before inside
          (by omega) ((namecmp_strncpy _ _).mp same)
  have entry : (storeOf sb image.disk).dirent rootino (i + 2) =
      entryOf i files[i] := by
    rw [made.dirent (limit (i + 2) (by omega)), List.getD_eq_getElem?_getD]
    simp only [rootEntries, List.getElem?_cons_succ, List.getElem?_mapIdx,
      found, Option.map_some, Option.getD_some]
  have number : (UInt16.ofNat (i + 2)).toNat = i + 2 := by
    change (i + 2) % 2 ^ 16 = i + 2
    omega
  have live : UInt16.ofNat (i + 2) ≠ 0 := by
    intro zero
    rw [zero] at number
    cases number
  rw [List.range_succ, List.findSome?_append,
    List.findSome?_eq_none_iff.mpr others, Option.none_or,
    List.findSome?_singleton]
  unfold Store.entryAt
  rw [entry, if_pos ⟨live, (namecmp_strncpy _ _).mpr
    ((strncmp_eq_zero_iff _ _ _).mpr rfl)⟩]
  change some ((UInt16.ofNat (i + 2)).toNat, _) = _
  rw [number]

omit few made in
theorem noHoles (is : Is (storeOf sb image.disk) (i + 2) tFile input.content) :
    (storeOf sb image.disk).NoHoles (i + 2) := by
  intro bn below
  have fits := is.holds.fits
  rw [is.size] at below
  have short : bn < maxfile := by
    unfold bsize at *
    omega
  refine ⟨short, ?_⟩
  rw [Ne, is.holds.blocks bn short]
  omega

omit few made in
/-- All bytes of a file. -/
theorem range_content {s : Store} {x : Nat} {type : UInt16}
    {bytes : List UInt8} (is : Is s x type bytes) :
    s.range x 0 bytes.length = bytes := by
  unfold Store.range
  rw [is.size, Nat.sub_zero, Nat.min_self]
  apply List.ext_getElem
  · rw [List.length_map, List.length_range]
  · intro k _ inside
    have fits := is.holds.fits
    rw [List.getElem_map, List.getElem_range, Nat.zero_add,
      is.holds.content k (by omega), List.getD_eq_getElem _ _ inside]

section Kernel

variable {state : State} (named : Named files)
  (found : files[i]? = some input)

include named found

theorem dirlookup_spec (settled : Settled sb state)
    (onDisk : state.files sb = storeOf sb image.disk)
    (locked : state.locks rootino = true)
    (room : state.icache.length < ninode) :
    wp (dirlookup sb rootino (shortname input.path))
      (fun result after => result = some (i + 2, (i + 2) * direntSize) ∧
        Moves sb (state.refs + Pi.single (i + 2) 1) state.locks state after)
      (fun _ => False) state := by
  obtain ⟨inside, _⟩ := List.getElem?_eq_some_iff.mp found
  have entry := made.findSome?_entryAt few named found
  rw [← onDisk] at entry
  have size : ((state.files sb).inode rootino).size.toNat =
      (i + 3 + ((direntSize * (files.length + 2) / bsize + 1) * bsize /
        direntSize - (i + 3))) * direntSize := by
    rw [onDisk, made.rootSize, length_rootBytes]
    unfold direntSize bsize
    omega
  have looked := dirlookup_first_spec settled locked
    (by rw [onDisk]; exact made.rootType) (shortname input.path) size
    (by
      intro j less
      rw [onDisk]
      exact made.readable few (by omega))
    (by
      rw [entry]
      nofun)
  rw [entry] at looked
  apply looked.mono
  · rintro _ after ⟨rfl, moves⟩
    exact ⟨rfl, moves⟩
  · intro _ full
    exact absurd full.full (Nat.not_le_of_lt room)

omit few named in
theorem readi_spec (settled : Settled sb state)
    (onDisk : state.files sb = storeOf sb image.disk) {ip : Inode}
    (held : Held state (i + 2) ip)
    (dinode : ip.dinode = (state.files sb).inode (i + 2)) :
    ip.dinode.size.toNat = input.content.length ∧
    wp (readi sb (i + 2) 0 ip.dinode.size.toNat)
      (fun bytes _ => bytes = some input.content) (fun _ => False) state := by
  have is := made.file i input found
  rw [onDisk] at dinode
  have size : ip.dinode.size.toNat = input.content.length := by
    rw [dinode, is.size]
  have small := ip.dinode.size.toNat_lt
  refine ⟨size, ?_⟩
  have read := @Fs.readi_spec sb state (i + 2) 0 _ ip settled.good held
    (by rw [dinode]; exact is.allocated) (by rw [dinode, is.type]; decide)
    (by rw [settled.store, onDisk]; exact (noHoles is).readable) (by decide)
    small
  apply read.imp
  rintro bytes _ ⟨_, rfl⟩
  rw [if_neg (by omega), settled.store, onDisk, size, range_content is]

/-- The kernel finds the file and reads its contents. -/
theorem readBack_spec (mounted : Mounted image state) :
    wp (readBack (shortname input.path))
      (fun result _ =>
        result = some (input.content.length, some input.content))
      (fun _ => False) state := by
  have onDisk : state.files sb = storeOf sb image.disk := by
    unfold State.files
    rw [mounted.disk]
  unfold readBack
  apply (ilock_spec mounted.settled mounted.root
    (congrFun mounted.unlocked rootino)
    (by rw [onDisk]; exact tDir_allocated made.rootType)).bind
  intro _ first moves
  have room : first.icache.length < ninode := by
    rw [moves.settled.length_icache, moves.refs,
      ← mounted.settled.length_icache]
    exact mounted.room
  apply (made.dirlookup_spec few named found moves.settled
    (moves.files.trans onDisk) (by rw [moves.locks, Function.update_self])
    room).bind
  rintro _ second ⟨rfl, moves'⟩
  have onDisk' := moves'.files.trans (moves.files.trans onDisk)
  apply (ilock_spec moves'.settled
    (by rw [moves'.refs, Pi.add_apply, Pi.single_eq_same]; omega)
    (by
      rw [moves'.locks, moves.locks, mounted.unlocked]
      exact Function.update_of_ne (by unfold rootino; omega) _ _)
    (by rw [onDisk']; exact (made.file i input found).allocated)).bind
  intro _ third moves''
  obtain ⟨ip, held, _, _, dinode⟩ := moves''.settled.held
    (x := i + 2) (by rw [moves''.locks, Function.update_self])
  apply wp_bind.mpr
  apply fetch_spec held.cached
  obtain ⟨size, read⟩ := made.readi_spec found moves''.settled
    (moves''.files.trans onDisk') held dinode
  apply read.bind
  rintro _ _ rfl
  rw [size]
  exact wp_pure.mpr rfl

end Kernel

end Made

/-- `mkfs` and the kernel agree on the format.  For files that fit, `mkfs`
exits unless a path has no short name, and on every image it leaves the kernel
finds each file under its short name and reads its contents, however the
contents were read by `mkfs`. -/
theorem main_readBack (files : List Input) (few : files.length < ninodes - 1)
    (named : Named files)
    (short : ∀ input ∈ files, input.content.length ≤ maxfile * bsize)
    (blocks : total files ≤ fssize) :
    ((∀ input ∈ files, slash ∈ input.path) →
      ∃ image, (main files).run Image.start = .ok ((), image)) ∧
    ∀ image, (main files).run Image.start = .ok ((), image) →
      Mounted image (booted image) ∧
      ∀ state, Mounted image state → ∀ input ∈ files, ∃ after,
        (readBack (shortname input.path)).run state =
          .ok (some (input.content.length, some input.content), after) := by
  have few' : files.length + 1 < ninodes := by omega
  refine ⟨fun paths => main_exits few' ⟨paths, short, blocks⟩, ?_⟩
  intro image exits
  have made := (main_spec few').ok exits
  refine ⟨made.mounted, ?_⟩
  intro state mounted input member
  obtain ⟨i, found⟩ := List.mem_iff_getElem?.mp member
  obtain ⟨_, after, success, rfl⟩ :=
    (made.readBack_spec few' named found mounted).returns
  exact ⟨after, success⟩

/-- A file that `mkfs` reads in two pieces. -/
def twoPieces : Input :=
  ⟨[slash, underscore, 97], [[1, 2], [3]], by decide, by decide⟩

theorem main_readBack_twoPieces :
    ∃ image after, (main [twoPieces]).run Image.start = .ok ((), image) ∧
      (readBack [97]).run (booted image) =
        .ok (some (3, some [1, 2, 3]), after) := by
  obtain ⟨exits, reads⟩ := main_readBack [twoPieces] (by decide)
    ⟨by decide, by decide, List.pairwise_singleton _ _⟩ (by decide) (by decide)
  obtain ⟨image, success⟩ := exits (by decide)
  obtain ⟨mounted, back⟩ := reads image success
  obtain ⟨after, read⟩ := back _ mounted twoPieces (List.mem_singleton_self _)
  exact ⟨image, after, success, read⟩

end Xv6.Mkfs
