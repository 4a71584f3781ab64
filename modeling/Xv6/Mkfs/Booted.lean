import Xv6.Fs.Lookup
import Xv6.Mkfs.Relied

/-!
# The kernel on a new image

The root directory of an image has the entries that `mkfs` appended and
nothing behind them.  The kernel starts on it with a reference to the root
directory, which is the current directory of the first process.
-/

namespace Xv6.Mkfs

open Lib Fs

/-- The state of the kernel after `userinit`. -/
def booted (image : Image) : State where
  disk := image.disk
  icache := [⟨rootino, 1, false, false, Dinode.zero⟩]
  devsw _ := none
  fssize := fssize
  journal := ⟨0, [], []⟩

theorem getD_bytes (de : Dirent) {k : Nat} (inside : k < direntSize) :
    de.bytes.getD k 0 = de.encode k := by
  rw [List.getD_eq_getElem _ _ (by rw [de.length_bytes]; exact inside)]
  unfold Dirent.bytes
  rw [List.getElem_map, List.getElem_range]

theorem getD_flatMap_bytes (entries : List Dirent) (i : Nat) {k : Nat}
    (inside : k < direntSize) :
    (entries.flatMap Dirent.bytes).getD (i * direntSize + k) 0 =
      (entries[i]?.map fun de => de.encode k).getD 0 := by
  induction entries generalizing i with
  | nil => rfl
  | cons de entries ih =>
      rw [List.flatMap_cons]
      cases i with
      | zero =>
          rw [Nat.zero_mul, Nat.zero_add, List.getD_append _ _ _ _
            (by rw [de.length_bytes]; exact inside), getD_bytes de inside]
          rfl
      | succ i =>
          have long : de.bytes.length ≤ (i + 1) * direntSize + k := by
            rw [de.length_bytes, Nat.succ_mul]
            omega
          have rest : (i + 1) * direntSize + k - de.bytes.length =
              i * direntSize + k := by
            rw [de.length_bytes, Nat.succ_mul]
            omega
          rw [List.getD_append_right _ _ _ _ long, rest, ih]
          rfl

theorem length_strncpy (n : Nat) (t : List UInt8) :
    (strncpy n t).length = n := by
  induction n generalizing t with
  | zero => rfl
  | succ n ih =>
      unfold strncpy
      rw [List.length_cons]
      split
      · rw [List.length_replicate]
      · rw [ih]

/-- An entry that was never written. -/
def noEntry : Dirent := ⟨0, List.replicate dirsiz 0⟩

theorem mem_rootEntries {files : List Input} {de : Dirent}
    (member : de ∈ rootEntries files) : de.name.length = dirsiz := by
  unfold rootEntries at member
  rw [List.mem_cons, List.mem_cons, List.mem_mapIdx] at member
  rcases member with rfl | rfl | ⟨i, _, rfl⟩
  · exact length_strncpy _ _
  · exact length_strncpy _ _
  · exact length_strncpy _ _

theorem refs_booted {image : Image} : (booted image).refs rootino ≠ 0 :=
  one_ne_zero

theorem unread {image : Image} {x : Nat} {ip : Inode}
    (cached : (booted image).cached x = some ip) :
    ip.valid = false ∧ ip.locked = false := by
  cases List.mem_singleton.mp (State.mem_of_cached cached)
  exact ⟨rfl, rfl⟩

theorem locks_booted {image : Image} :
    (booted image).locks = fun _ => false := by
  funext x
  unfold State.locks
  cases cached : (booted image).cached x with
  | none => rfl
  | some ip => exact (unread cached).2

namespace Made

variable {files : List Input} {image : Image}
  (few : files.length + 1 < ninodes) (made : Made files image)

include few made

omit few in
theorem dirent {i : Nat} (inside : i < maxfile * bsize / direntSize) :
    (storeOf sb image.disk).dirent rootino i =
      (rootEntries files).getD i noEntry := by
  have bytes : ∀ k, k < direntSize →
      (storeOf sb image.disk).byte rootino (i * direntSize + k) =
        ((rootEntries files)[i]?.map fun de => de.encode k).getD 0 := by
    intro k short
    rw [made.root.content, rootBytes, getD_flatMap_bytes _ _ short]
    unfold maxfile ndirect nindirect bsize direntSize at *
    omega
  have decoded : ∀ de : Dirent, de.name.length = dirsiz →
      (∀ k, k < direntSize →
        ((rootEntries files)[i]?.map fun de => de.encode k).getD 0 =
          de.encode k) →
      (storeOf sb image.disk).dirent rootino i = de := by
    intro de full same
    rw [← Dirent.decode_encode full]
    apply Dirent.decode_congr
    intro k short
    rw [bytes k short, same k short]
  rw [List.getD_eq_getElem?_getD]
  cases found : (rootEntries files)[i]? with
  | none =>
      apply decoded
      · exact List.length_replicate
      · rw [found]
        decide
  | some de =>
      apply decoded
      · exact mem_rootEntries (List.mem_of_getElem? found)
      · intro k _
        rw [found]
        rfl

theorem rootCount :
    (storeOf sb image.disk).direntCount rootino ≤ maxfile * bsize / direntSize := by
  have size := made.rootSize
  rw [length_rootBytes] at size
  have small : ninodes = 200 := rfl
  unfold Store.direntCount
  rw [size]
  unfold maxfile ndirect nindirect bsize direntSize at *
  omega

/-- What an entry of the root directory names. -/
theorem dirent_inum {i : Nat}
    (inside : i < (storeOf sb image.disk).direntCount rootino)
    (live : ((storeOf sb image.disk).dirent rootino i).inum ≠ 0) :
    ((storeOf sb image.disk).dirent rootino i).inum.toNat < files.length + 2 ∧
      ((storeOf sb image.disk).dirent rootino i).inum.toNat ≠ 0 := by
  rw [made.dirent (Nat.lt_of_lt_of_le inside (made.rootCount few))] at *
  have small : ninodes = 200 := rfl
  refine ⟨?_, fun zero => live (UInt16.toNat_inj.mp zero)⟩
  rw [List.getD_eq_getElem?_getD] at *
  cases found : (rootEntries files)[i]? with
  | none =>
      rw [found] at live
      exact (live rfl).elim
  | some de =>
      have member := List.mem_of_getElem? found
      unfold rootEntries at member
      rw [List.mem_cons, List.mem_cons, List.mem_mapIdx] at member
      rw [Option.getD_some]
      rcases member with rfl | rfl | ⟨j, short, rfl⟩
      · change rootino % _ < _
        unfold rootino
        omega
      · change rootino % _ < _
        unfold rootino
        omega
      · change (j + 2) % _ < _
        omega

omit few in
theorem marked_iff (b : Nat) : Marked sb image.disk b ↔ b < image.freeblock := by
  have last := made.last
  unfold Marked
  rw [size_sb]
  constructor
  · rintro ⟨inside, set⟩
    have first : bblock sb b = sb.bmapstart.toNat := by
      unfold bblock bpb bsize fssize at *
      omega
    have bit : b % bpb = b := by
      unfold bpb bsize fssize at *
      omega
    rw [first, bit, made.bitmap, bitSet_foldl_setBit] at set
    exact of_decide_eq_true set
  · intro used
    have first : bblock sb b = sb.bmapstart.toNat := by
      unfold bblock bpb bsize fssize at *
      omega
    have bit : b % bpb = b := by
      unfold bpb bsize fssize at *
      omega
    rw [first, bit, made.bitmap, bitSet_foldl_setBit]
    exact ⟨by omega, decide_eq_true used⟩

omit few in
theorem settled : Settled sb (booted image) := by
  have store : (booted image).store sb = storeOf sb image.disk := by
    apply Store.ext
    · funext x
      change (booted image).dinode sb x = _
      unfold State.dinode
      split
      · rename_i ip cached
        rw [(unread cached).1]
        rfl
      · rfl
    · rfl
  have metas : nmeta ≤ image.freeblock := by
    rw [made.freeblock]
    unfold total
    omega
  refine ⟨⟨layout, le_rfl, ?_, ?_, ?_, ?_, ?_⟩, ?_, ?_⟩
  · intro b early
    rw [datastart_sb] at early
    exact (made.marked_iff b).mpr (by omega)
  · rw [store]
    have owns := made.owns
    refine ⟨layout.not_area_zero, ?_, ?_, owns.single, ?_⟩
    · intro owner some
      have below := owns.used owner some
      have last := made.last
      exact ⟨owns.inside owner some, by rw [size_sb]; omega⟩
    · intro owner some
      exact (made.marked_iff _).mpr (owns.used owner some)
    · intro b area used
      exact owns.complete b area.1 ((made.marked_iff b).mp used)
  · exact List.nodup_singleton _
  · intro ip member
    cases List.mem_singleton.mp member
    decide
  · intro ip member
    cases List.mem_singleton.mp member
    decide
  · intro x ip cached valid
    rw [(unread cached).1] at valid
    cases valid
  · intro x ip cached locked
    rw [(unread cached).2] at locked
    cases locked

omit few in
theorem inode {x : Nat} (some : x ≠ 0) (small : x < files.length + 2) :
    ((storeOf sb image.disk).inode x).allocated ∧
      ((storeOf sb image.disk).inode x).nlink = 1 := by
  by_cases root : x = rootino
  · rw [root]
    exact ⟨tDir_allocated made.rootType, made.rootNlink⟩
  · unfold rootino at root
    have short : x - 2 < files.length := by omega
    have is := made.file (x - 2) _ (List.getElem?_eq_getElem short)
    rw [show x - 2 + 2 = x by omega] at is
    exact ⟨is.allocated, is.nlink⟩

omit few in
theorem type_eq_tDir_iff (x : Nat) :
    ((storeOf sb image.disk).inode x).type = tDir ↔ x = rootino := by
  constructor
  · intro dir
    by_contra other
    by_cases file : x = 0 ∨ files.length + 2 ≤ x
    · rw [made.unused x file] at dir
      exact absurd dir (by decide)
    · unfold rootino at other
      have short : x - 2 < files.length := by omega
      have is := made.file (x - 2) _ (List.getElem?_eq_getElem short)
      rw [show x - 2 + 2 = x by omega] at is
      rw [is.type] at dir
      exact absurd dir (by decide)
  · rintro rfl
    exact made.rootType

/-- A new image is a sound file system, unless the entries of the root
directory fill its last block. -/
theorem sound (partly : (files.length + 2) % direntsPerBlock ≠ 0) :
    Sound sb (booted image) := by
  have covered := (made.root_covered_iff few).mpr partly
  have limit := made.rootCount few
  have size := made.rootSize
  have isDir : (storeOf sb image.disk).IsDir rootino := by
    refine ⟨made.rootType, ?_, ?_, ?_⟩
    · rw [size]
      exact Dvd.dvd.mul_left (by decide) _
    · intro bn below
      refine ⟨?_, covered bn ?_⟩
      · rw [length_rootBytes] at size
        have small : ninodes = 200 := rfl
        rw [size] at below
        unfold maxfile ndirect nindirect bsize direntSize at *
        omega
      · unfold bsize at *
        omega
    · intro i inside live
      obtain ⟨small, some⟩ := made.dirent_inum few inside live
      exact (made.inode some small).1
  have anchored : ∀ x, x ≠ 0 → x < files.length + 2 →
      Anchored sb (booted image) x := by
    intro x some small
    obtain ⟨allocated, nlink⟩ := made.inode some small
    refine ⟨allocated, .inl ?_⟩
    change ((storeOf sb image.disk).inode x).nlink ≠ 0
    rw [nlink]
    decide
  refine ⟨made.settled, locks_booted, ?_, ?_, ?_⟩
  · intro x dir
    rw [(made.type_eq_tDir_iff x).mp dir]
    exact isDir
  · intro x dir i inside live
    have same := (made.type_eq_tDir_iff x).mp dir
    subst same
    obtain ⟨small, some⟩ := made.dirent_inum few inside live
    exact anchored _ some small
  · exact anchored rootino (by decide) (by unfold rootino; omega)

end Made

end Xv6.Mkfs
