import Xv6.Param
import Mathlib.Data.List.Nodup
import Mathlib.Data.List.Perm.Subperm
import Mathlib.Logic.Function.Basic

/-!
# The block cache of `kernel/bio.c`

The cache is modelled as the log uses it: the buffers in use with the number,
the contents and the flag `B_DIRTY` of their block.  There are `NBUF` buffers
and never two for one block, which the type records.  `bget` takes over a
clean buffer that nobody refers to; here that is a step of its own, `recycle`,
after which there is room for another block.
-/

namespace Xv6

/-- `BSIZE` of `libs/fs.h` in words of four bytes. -/
def wordsPerBlock : Nat := 512 / 4

instance : NeZero wordsPerBlock := ⟨by decide⟩

/-- The contents of a block. -/
abbrev Block := Fin wordsPerBlock → Nat

/-- A valid `struct buf`. -/
structure Buf where
  blockno : Nat
  data : Block
  dirty : Bool

structure Bcache where
  bufs : List Buf
  distinct : (bufs.map Buf.blockno).Nodup
  fits : bufs.length ≤ nbuf

namespace Bcache

variable {cache middle after : Bcache} {disk : Nat → Block} {buf : Buf}
  {blockno other : Nat} {data : Block}

/-- The cache of a machine that has just been started. -/
def empty : Bcache := ⟨[], .nil, Nat.zero_le _⟩

def find (cache : Bcache) (blockno : Nat) : Option Buf :=
  cache.bufs.find? fun buf => buf.blockno = blockno

theorem find_blockno (found : cache.find blockno = some buf) :
    buf.blockno = blockno := by
  simpa using List.find?_some found

theorem find_none (absent : cache.find blockno = none) :
    blockno ∉ cache.bufs.map Buf.blockno := by
  intro member
  obtain ⟨buf, inside, same⟩ := List.mem_map.mp member
  simpa [same] using List.find?_eq_none.mp absent buf inside

/-- Distinct cached blocks have a buffer each. -/
theorem length_le_nbuf {blocks : List Nat} (distinct : blocks.Nodup)
    (cached : ∀ blockno ∈ blocks, cache.find blockno ≠ none) :
    blocks.length ≤ nbuf := by
  have inside : blocks ⊆ cache.bufs.map Buf.blockno := by
    intro blockno member
    obtain ⟨buf, found⟩ :=
      Option.ne_none_iff_exists'.mp (cached blockno member)
    rw [← find_blockno found]
    exact List.mem_map_of_mem (List.mem_of_find?_eq_some found)
  calc
    blocks.length ≤ (cache.bufs.map Buf.blockno).length :=
      (distinct.subperm inside).length_le
    _ = cache.bufs.length := List.length_map _
    _ ≤ nbuf := cache.fits

/-- Assignments to the buffer of a block. -/
def update (cache : Bcache) (blockno : Nat) (assign : Buf → Buf) :
    Bcache where
  bufs := cache.bufs.map fun buf =>
    if buf.blockno = blockno then { assign buf with blockno := blockno }
    else buf
  distinct := by
    have same : ((cache.bufs.map fun buf =>
        if buf.blockno = blockno then { assign buf with blockno := blockno }
        else buf).map Buf.blockno) = cache.bufs.map Buf.blockno := by
      rw [List.map_map]
      apply List.map_congr_left
      intro buf _
      by_cases isOwn : buf.blockno = blockno
      · simp [isOwn]
      · simp [isOwn]
    rw [same]
    exact cache.distinct
  fits := by
    rw [List.length_map]
    exact cache.fits

theorem find_update (cache : Bcache) (blockno : Nat) (assign : Buf → Buf)
    (other : Nat) :
    (cache.update blockno assign).find other =
      if other = blockno then
        (cache.find blockno).map fun buf =>
          { assign buf with blockno := blockno }
      else cache.find other := by
  have onList : ∀ bufs : List Buf,
      ((bufs.map fun buf =>
        if buf.blockno = blockno then { assign buf with blockno := blockno }
        else buf).find? fun buf => buf.blockno = other) =
      if other = blockno then
        (bufs.find? fun buf => buf.blockno = blockno).map fun buf =>
          { assign buf with blockno := blockno }
      else bufs.find? fun buf => buf.blockno = other := by
    intro bufs
    induction bufs with
    | nil => simp
    | cons first rest induction =>
        rw [List.map_cons, List.find?_cons, induction, List.find?_cons,
          List.find?_cons]
        by_cases own : first.blockno = blockno
        · by_cases same : other = blockno
          · simp [own, same]
          · simp [own, same, Ne.symm same]
        · by_cases same : other = blockno
          · simp [own, same]
          · simp [own, same]
  exact onList cache.bufs

/-- `bget` gives the buffer of the block to another one. -/
def recycle (cache : Bcache) (blockno : Nat) : Bcache where
  bufs := cache.bufs.filter fun buf => buf.blockno ≠ blockno
  distinct :=
    cache.distinct.sublist (List.Sublist.map _ List.filter_sublist)
  fits := Nat.le_trans (List.length_filter_le _ _) cache.fits

theorem find_recycle (cache : Bcache) (blockno other : Nat) :
    (cache.recycle blockno).find other =
      if other = blockno then none else cache.find other := by
  unfold find recycle
  rw [List.find?_filter]
  by_cases same : other = blockno
  · subst same
    rw [if_pos rfl]
    simp
  · rw [if_neg same]
    congr
    funext buf
    by_cases own : buf.blockno = other
    · simp [own, same]
    · simp [own]

/-- `bread`: the contents of the block, which is cached afterwards. -/
def bread (cache : Bcache) (disk : Nat → Block) (blockno : Nat) :
    Except Fault (Block × Bcache) :=
  match found : cache.find blockno with
  | some buf => .ok (buf.data, cache)
  | none =>
      if room : cache.bufs.length < nbuf then
        .ok (disk blockno,
          { bufs := ⟨blockno, disk blockno, false⟩ :: cache.bufs
            distinct :=
              List.nodup_cons.mpr ⟨find_none found, cache.distinct⟩
            fits := room })
      else .error (.panic "bget: no buffers")

/-- What `bread` returns. -/
def contents (cache : Bcache) (disk : Nat → Block) (blockno : Nat) : Block :=
  match cache.find blockno with
  | some buf => buf.data
  | none => disk blockno

/-- The cache after blocks have been read into it. -/
def Extends (disk : Nat → Block) (cache after : Bcache) : Prop :=
  ∀ blockno, after.find blockno = cache.find blockno ∨
    (cache.find blockno = none ∧
      after.find blockno = some ⟨blockno, disk blockno, false⟩)

theorem Extends.refl (cache : Bcache) : Extends disk cache cache :=
  fun _ => .inl rfl

theorem Extends.trans (first : Extends disk cache middle)
    (second : Extends disk middle after) : Extends disk cache after := by
  intro blockno
  rcases first blockno with same | ⟨absent, read⟩
  · rw [← same]
    exact second blockno
  · refine .inr ⟨absent, ?_⟩
    rcases second blockno with kept | ⟨none, _⟩
    · rw [kept]
      exact read
    · simp [read] at none

theorem Extends.keeps (reads : Extends disk cache after)
    (found : cache.find blockno = some buf) :
    after.find blockno = some buf := by
  rcases reads blockno with same | ⟨absent, _⟩
  · rw [same]
    exact found
  · simp [found] at absent

theorem Extends.contents (reads : Extends disk cache after)
    (blockno : Nat) :
    after.contents disk blockno = cache.contents disk blockno := by
  unfold Bcache.contents
  rcases reads blockno with same | ⟨absent, read⟩
  · rw [same]
  · rw [absent, read]

theorem contents_of_find (found : cache.find blockno = some buf) :
    cache.contents disk blockno = buf.data := by
  simp [contents, found]

theorem bread_eq (success : cache.bread disk blockno = .ok (data, after)) :
    data = cache.contents disk blockno ∧ Extends disk cache after ∧
      after.find blockno ≠ none := by
  unfold bread at success
  split at success
  · rename_i buf found
    cases success
    refine ⟨(contents_of_find found).symm, .refl _, ?_⟩
    simp [found]
  · rename_i absent
    split at success
    · cases success
      refine ⟨by simp [contents, absent], ?_, by simp [find]⟩
      intro other
      by_cases same : other = blockno
      · subst same
        exact .inr ⟨absent, by simp [find]⟩
      · left
        have different : blockno ≠ other := Ne.symm same
        simp [find, different]
    · cases success

/-- The buffers of certain blocks hold what is on the disk. -/
def Clean (blocks : Nat → Prop) (disk : Nat → Block) (cache : Bcache) :
    Prop :=
  ∀ blockno buf, blocks blockno → cache.find blockno = some buf →
    buf = ⟨blockno, disk blockno, false⟩

namespace Clean

variable {blocks : Nat → Prop}

theorem contents (clean : Clean blocks disk cache)
    (member : blocks blockno) :
    cache.contents disk blockno = disk blockno := by
  unfold Bcache.contents
  cases found : cache.find blockno with
  | none => rfl
  | some buf => simp [clean blockno buf member found]

theorem reads (clean : Clean blocks disk cache)
    (extended : Extends disk cache after) : Clean blocks disk after := by
  intro blockno buf member found
  rcases extended blockno with same | ⟨_, read⟩
  · rw [same] at found
    exact clean blockno buf member found
  · simpa [read] using found.symm

/-- `bwrite` of any block. -/
theorem bwrite (clean : Clean blocks disk cache) (blockno : Nat)
    (data : Block) :
    Clean blocks (Function.update disk blockno data)
      (cache.update blockno fun buf =>
        { buf with data := data, dirty := false }) := by
  intro other buf member found
  rw [find_update] at found
  by_cases same : other = blockno
  · subst same
    obtain ⟨old, _, rfl⟩ := by
      simpa only [if_true, Option.map_eq_some_iff] using found
    simp
  · rw [if_neg same] at found
    rw [Function.update_of_ne same]
    exact clean other buf member found

/-- Assignments to the buffer of another block. -/
theorem update_away (clean : Clean blocks disk cache)
    (away : ¬ blocks blockno) (assign : Buf → Buf) :
    Clean blocks disk (cache.update blockno assign) := by
  intro other buf member found
  have different : other ≠ blockno := by
    rintro rfl
    exact away member
  rw [find_update, if_neg different] at found
  exact clean other buf member found

theorem recycle (clean : Clean blocks disk cache) (blockno : Nat) :
    Clean blocks disk (cache.recycle blockno) := by
  intro other buf member found
  rw [find_recycle] at found
  split at found
  · cases found
  · exact clean other buf member found

end Clean

end Bcache

end Xv6
