import Xv6.Fs.Cache
import Xv6.Fs.Directories

/-!
# Directories

A directory is a list of entries, of which those with a number count.
`dirlookup` takes the first entry with a name.
-/

namespace Xv6.Fs

open Lib

namespace Store

variable (s : Store) (x : Nat)

/-- An entry of a directory. -/
def dirent (i : Nat) : Dirent :=
  Dirent.decode fun k => s.byte x (i * direntSize + k)

/-- The number of entries. -/
def direntCount : Nat := (s.inode x).size.toNat / direntSize

/-- The inode and the offset of an entry, if it has the name. -/
def entryAt (name : List UInt8) (i : Nat) : Option (Nat × Nat) :=
  if (s.dirent x i).inum ≠ 0 ∧ namecmp name (s.dirent x i).name = 0 then
    some ((s.dirent x i).inum.toNat, i * direntSize)
  else none

/-- The inode and the offset of the first entry with a name. -/
def lookup (name : List UInt8) : Option (Nat × Nat) :=
  (List.range (s.direntCount x)).findSome? (s.entryAt x name)

/-- An entry in existing blocks that names an allocated inode, if any. -/
structure Readable (i : Nat) : Prop where
  inside : i * direntSize + direntSize ≤ (s.inode x).size.toNat
  present : s.Present x (i * direntSize) direntSize
  allocated : (s.dirent x i).inum ≠ 0 →
    (s.inode (s.dirent x i).inum.toNat).allocated

/-- A directory with whole entries that name allocated inodes. -/
structure IsDir : Prop where
  type : (s.inode x).type = tDir
  whole : direntSize ∣ (s.inode x).size.toNat
  noHoles : s.NoHoles x
  allocated : ∀ i, i < s.direntCount x → (s.dirent x i).inum ≠ 0 →
    (s.inode (s.dirent x i).inum.toNat).allocated

end Store

variable {sb : Superblock} {state after : State} {dp x : Nat}
  {name : List UInt8}

theorem tDir_allocated {dinode : Dinode} (type : dinode.type = tDir) :
    dinode.allocated := by
  unfold Dinode.allocated
  rw [type]
  decide

theorem State.lt_of_allocated
    (allocated : ((state.files sb).inode x).allocated) :
    x < sb.ninodes.toNat := by
  by_contra outside
  have zero : (state.files sb).inode x = Dinode.zero := if_neg outside
  rw [zero] at allocated
  cases allocated

/-! ## Reading an entry -/

theorem Store.IsDir.size {s : Store} (isDir : s.IsDir dp) :
    (s.inode dp).size.toNat = s.direntCount dp * direntSize :=
  (Nat.div_mul_cancel isDir.whole).symm

theorem Store.IsDir.readable {s : Store} (isDir : s.IsDir dp) {i : Nat}
    (inside : i < s.direntCount dp) : s.Readable dp i := by
  have last : i * direntSize + direntSize ≤ (s.inode dp).size.toNat := by
    rw [isDir.size, ← Nat.succ_mul]
    exact Nat.mul_le_mul_right _ inside
  exact ⟨last, isDir.noHoles.present last, isDir.allocated i inside⟩

section Lookup

variable (settled : Settled sb state) (locked : state.locks dp = true)
  (dir : ((state.files sb).inode dp).type = tDir)

include settled locked dir

theorem readDirent_spec {message : String} {i : Nat}
    (readable : (state.files sb).Readable dp i) :
    wp (readDirent sb dp (i * direntSize) message)
      (fun de after => de = (state.files sb).dirent dp i ∧ after = state)
      (fun _ => False) state := by
  obtain ⟨ip, held, _, _, dinode⟩ := settled.held locked
  have last := readable.inside
  have small := ((state.files sb).inode dp).size.toNat_lt
  have limit : ¬ 2 ^ 32 ≤ i * direntSize + direntSize := by
    have first := readable.present (i * direntSize / bsize) (by
      rw [mem_indices]
      unfold direntSize bsize
      omega)
    unfold maxfile ndirect nindirect bsize direntSize at *
    omega
  have read := @readi_spec sb state dp (i * direntSize) direntSize ip
    settled.good held
    (by rw [dinode]; exact tDir_allocated dir)
    (by rw [dinode, dir]; decide)
    (by
      rw [settled.store, Nat.min_eq_left (by omega)]
      exact fun _ => readable.present) (by omega) (by decide)
  rw [dinode, settled.store, if_neg (by omega)] at read
  unfold readDirent
  apply read.bind
  rintro bytes after ⟨same, found⟩
  subst found
  dsimp only
  have length : ((state.files sb).range dp (i * direntSize)
      direntSize).length = direntSize := by
    unfold Store.range
    rw [List.length_map, List.length_range]
    exact Nat.min_eq_left (by omega)
  rw [if_pos length]
  apply wp_pure.mpr
  refine ⟨?_, same⟩
  unfold Store.dirent
  apply Dirent.decode_congr
  intro k short
  rw [List.getD_eq_getElem _ _ (by rw [length]; exact short)]
  unfold Store.range
  rw [List.getElem_map, List.getElem_range]

/-! ## Looking for a name -/

/-- One more reference to what was found. -/
def taken (refs : Nat → Nat) : Option Nat → Nat → Nat
  | none => refs
  | some x => refs + Pi.single x 1

/-- The loop ends at the first entry with the name, or behind the last
entry. -/
theorem dirlookupLoop_spec (indices : List Nat) {rest : List Nat}
    (readable : ∀ i ∈ indices, (state.files sb).Readable dp i)
    (ends : indices.findSome? ((state.files sb).entryAt dp name) = none →
      rest = []) :
    wp (dirlookupLoop sb dp name ((indices ++ rest).map (· * direntSize)))
      (fun found after =>
        found = indices.findSome? ((state.files sb).entryAt dp name) ∧
        Moves sb (taken state.refs (found.map Prod.fst)) state.locks state
          after)
      (CacheFull state) state := by
  induction indices with
  | nil =>
      rw [ends rfl]
      exact wp_pure.mpr ⟨rfl, settled.moves⟩
  | cons i indices induction =>
      have first := readable i List.mem_cons_self
      rw [List.cons_append, List.map_cons, dirlookupLoop]
      rw [List.findSome?_cons] at ends ⊢
      apply (readDirent_spec settled locked dir first).safe.bind
      rintro de after ⟨read, same⟩
      subst same read
      unfold Store.entryAt at ends ⊢
      by_cases named : ((after.files sb).dirent dp i).inum ≠ 0 ∧
          namecmp name ((after.files sb).dirent dp i).name = 0
      · rw [if_pos named, if_pos named]
        apply (iget_spec settled (State.lt_of_allocated
          (first.allocated named.1))).bind
        rintro x last ⟨number, moves⟩
        subst number
        exact wp_pure.mpr ⟨rfl, moves⟩
      · rw [if_neg named] at ends ⊢
        rw [if_neg named]
        exact induction (fun j member =>
          readable j (List.mem_cons_of_mem i member)) ends

omit settled locked dir in
theorem direntOffsets_of_dvd {start size : Nat} (whole : direntSize ∣ size) :
    direntOffsets start size =
      (List.range' start (size / direntSize - start)).map
        (· * direntSize) := by
  obtain ⟨count, rfl⟩ := whole
  have up : (direntSize * count + direntSize - 1) / direntSize = count := by
    unfold direntSize
    omega
  unfold direntOffsets
  rw [up, Nat.mul_div_cancel_left _ (by decide)]

/-- `dirlookup` reads entries up to the first one with the name. -/
theorem dirlookup_first_spec (name : List UInt8) {n more : Nat}
    (size : ((state.files sb).inode dp).size.toNat = (n + more) * direntSize)
    (readable : ∀ i, i < n → (state.files sb).Readable dp i)
    (ends : (List.range n).findSome? ((state.files sb).entryAt dp name) =
      none → more = 0) :
    wp (dirlookup sb dp name)
      (fun found after => found =
          (List.range n).findSome? ((state.files sb).entryAt dp name) ∧
        Moves sb (taken state.refs (found.map Prod.fst)) state.locks state
          after)
      (CacheFull state) state := by
  obtain ⟨ip, held, _, _, dinode⟩ := settled.held locked
  unfold dirlookup
  apply wp_bind.mpr
  apply fetch_spec held.cached
  rw [dinode, if_pos dir, size, direntOffsets_of_dvd (Nat.dvd_mul_left _ _),
    Nat.mul_div_cancel _ (by decide), Nat.sub_zero, ← List.range_eq_range',
    List.range_add]
  refine dirlookupLoop_spec settled locked dir _ (fun i member =>
    readable i (List.mem_range.mp member)) fun absent => ?_
  rw [ends absent]
  rfl

end Lookup

theorem dirlookup_spec (settled : Settled sb state)
    (locked : state.locks dp = true) (isDir : (state.files sb).IsDir dp)
    (name : List UInt8) :
    wp (dirlookup sb dp name)
      (fun found after => found = (state.files sb).lookup dp name ∧
        Moves sb (taken state.refs (found.map Prod.fst)) state.locks state
          after)
      (CacheFull state) state := by
  have size : ((state.files sb).inode dp).size.toNat =
      ((state.files sb).direntCount dp + 0) * direntSize := isDir.size
  exact dirlookup_first_spec settled locked isDir.type name size
    (fun _ inside => isDir.readable inside) fun _ => rfl

/-! ## Sound file systems -/

/-- An inode that stays when a reference to it is dropped. -/
structure Anchored (sb : Superblock) (state : State) (x : Nat) : Prop where
  allocated : ((state.files sb).inode x).allocated
  linked : ((state.files sb).inode x).nlink ≠ 0 ∨ state.refs x ≠ 0

/-- A file system between two system calls, in which the entries of every
directory name inodes that stay. -/
structure Sound (sb : Superblock) (state : State) : Prop where
  settled : Settled sb state
  unlocked : state.locks = fun _ => false
  dirs : ∀ x, ((state.files sb).inode x).type = tDir →
    (state.files sb).IsDir x
  linked : ∀ x, ((state.files sb).inode x).type = tDir →
    ∀ i, i < (state.files sb).direntCount x →
      ((state.files sb).dirent x i).inum ≠ 0 →
      Anchored sb state ((state.files sb).dirent x i).inum.toNat
  root : Anchored sb state rootino

end Xv6.Fs
