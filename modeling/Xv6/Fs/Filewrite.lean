import Mathlib.Data.Finset.Image
import Xv6.Fs.Files
import Xv6.Fs.Table

/-!
# Writing to an open file

`filewrite` cuts what it writes into chunks, so that the blocks that one chunk
passes to `log_write` fit into the reservation of `begin_op`.  The chunks lie
one behind the other.
-/

namespace Xv6.Fs

open Lib

variable {sb : Superblock} {kernel after last : Kernel} {f : Fin nfile}
  {chunk : List UInt8}

/-- The kernel with another file system. -/
def Kernel.withFs (kernel : Kernel) (fs : State) : Kernel :=
  { kernel with fs := fs }

theorem wp_fs {α : Type} {code : Code α} {post : α → Kernel → Prop}
    {fault : Fault → Prop} :
    wp (fs code) post fault kernel ↔
      wp code (fun value fs => post value (kernel.withFs fs)) fault
        kernel.fs :=
  wp_inPart

/-- The inodes and data blocks. -/
def Kernel.files (kernel : Kernel) (sb : Superblock) : Store :=
  kernel.fs.files sb

/-- An open file that is a regular one without holes, while no section of the
log is open. -/
structure Regular (sb : Superblock) (kernel : Kernel) (f : Fin nfile) :
    Prop where
  settled : Settled sb kernel.fs
  opened : (kernel.ftable f).type = .inode
  used : kernel.fs.refs (kernel.ftable f).ip ≠ 0
  free : kernel.fs.locks (kernel.ftable f).ip = false
  file : ((kernel.files sb).inode (kernel.ftable f).ip).type = tFile
  noHoles : (kernel.files sb).NoHoles (kernel.ftable f).ip
  start : (kernel.ftable f).off ≤
    ((kernel.files sb).inode (kernel.ftable f).ip).size.toNat
  idle : kernel.fs.journal.logged = []

/-! ## The blocks of a chunk -/

/-- The places that a write may touch. -/
def touched (off n : Nat) : Finset Place :=
  insert .indirect ((indices off n).toFinset.image Place.ofIndex)

theorem footprint_subset (off n : Nat) :
    ((indices off n).flatMap footprint).toFinset ⊆ touched off n := by
  intro p member
  rw [List.mem_toFinset, List.mem_flatMap] at member
  obtain ⟨bn, index, place⟩ := member
  unfold touched
  rw [Finset.mem_insert, Finset.mem_image]
  unfold footprint at place
  split at place
  · right
    exact ⟨bn, List.mem_toFinset.mpr index, (List.mem_singleton.mp place).symm⟩
  · rw [List.mem_cons, List.mem_singleton] at place
    rcases place with rfl | rfl
    · exact .inl rfl
    · exact .inr ⟨bn, List.mem_toFinset.mpr index, rfl⟩

theorem card_touched_le (off n : Nat) :
    (touched off n).card ≤ (indices off n).length + 1 := by
  refine le_trans (Finset.card_insert_le _ _) (Nat.succ_le_succ ?_)
  exact le_trans Finset.card_image_le (List.toFinset_card_le _)

theorem length_indices_le (off : Nat) {n : Nat} (short : n ≤ maxWrite) :
    (indices off n).length ≤ if off % bsize = 0 then 3 else 4 := by
  have limit : maxWrite = 1536 := rfl
  unfold indices bsize
  rw [List.length_range']
  split <;> split <;> omega

/-- A chunk needs at most four new blocks. -/
theorem card_lacks_le {s : Store} {x off n : Nat} (noHoles : s.NoHoles x)
    (start : off ≤ (s.inode x).size.toNat) (short : n ≤ maxWrite) :
    (s.lacks x (indices off n)).card ≤ 4 := by
  have few := length_indices_le off short
  have places := card_touched_le off n
  have inside : s.lacks x (indices off n) ⊆ touched off n := by
    intro p member
    exact footprint_subset off n
      (List.mem_toFinset.mpr (Store.mem_lacks.mp member).1)
  by_cases aligned : off % bsize = 0
  · rw [if_pos aligned] at few
    exact le_trans (Finset.card_le_card inside) (by omega)
  · rw [if_neg aligned] at few
    by_cases nothing : n = 0
    · subst nothing
      have empty : indices off 0 = [] := rfl
      rw [empty, Store.lacks_nil]
      exact Nat.zero_le _
    · have first : off / bsize ∈ indices off n := by
        rw [indices_of_ne_zero nothing]
        exact List.mem_cons_self
      have present : s.block x (off / bsize) ≠ 0 := by
        refine (noHoles (off / bsize) ?_).2
        unfold bsize at *
        omega
      have less : s.lacks x (indices off n) ⊆
          (touched off n).erase (.ofIndex (off / bsize)) := by
        intro p member
        refine Finset.mem_erase.mpr ⟨?_, inside member⟩
        rintro rfl
        exact present (Store.mem_lacks.mp member).2
      have listed : Place.ofIndex (off / bsize) ∈ touched off n :=
        Finset.mem_insert_of_mem (Finset.mem_image_of_mem _
          (List.mem_toFinset.mpr first))
      have card := Finset.card_le_card less
      rw [Finset.card_erase_of_mem listed] at card
      omega

/-- The blocks that a chunk passes to `log_write`. -/
theorem Wrote.card_logged_le {state after : State} {x off : Nat}
    {fresh : List Place} (wrote : Wrote sb x off chunk fresh state after)
    (idle : state.journal.logged = [])
    (noHoles : (state.store sb).NoHoles x)
    (start : off ≤ (state.dinode sb x).size.toNat)
    (short : chunk.length ≤ maxWrite) :
    after.journal.logged.toFinset.card ≤ maxOpBlocks := by
  have few := length_indices_le off short
  have places := card_touched_le off chunk.length
  have new : fresh.toFinset.card ≤ 4 := by
    rw [wrote.lacking]
    exact card_lacks_le noHoles start short
  have whole : maxOpBlocks = 10 := rfl
  have covered : after.journal.logged.toFinset ⊆
      insert (iblock sb x)
        ((touched off chunk.length).image
            (fun p => (after.store sb).address (x, p)) ∪
          fresh.toFinset.image
            (fun p => bblock sb ((after.store sb).address (x, p)))) := by
    intro b member
    rw [Finset.mem_insert, Finset.mem_union, Finset.mem_image,
      Finset.mem_image]
    rcases wrote.logs b (List.mem_toFinset.mp member) with
      old | inode | ⟨p, listed, owned, _⟩ | ⟨p, listed, part⟩
    · rw [idle] at old
      cases old
    · exact .inl inode
    · exact .inr (.inl ⟨p, footprint_subset _ _ (List.mem_toFinset.mpr listed),
        owned⟩)
    · exact .inr (.inr ⟨p, List.mem_toFinset.mpr listed, part.symm⟩)
  have card := le_trans (Finset.card_le_card covered)
    (Finset.card_insert_le _ _)
  have union := Finset.card_union_le
    ((touched off chunk.length).image
      (fun p => (after.store sb).address (x, p)))
    (fresh.toFinset.image
      (fun p => bblock sb ((after.store sb).address (x, p))))
  have data : ((touched off chunk.length).image
      (fun p => (after.store sb).address (x, p))).card ≤ _ :=
    Finset.card_image_le
  have bitmap : (fresh.toFinset.image
      (fun p => bblock sb ((after.store sb).address (x, p)))).card ≤ _ :=
    Finset.card_image_le
  split at few
  · omega
  · omega

/-! ## One chunk -/

/-- The system calls that came before and one more section. -/
structure Section (blocks : List Nat) (kernel after : Kernel) : Prop where
  begun : after.fs.journal.begun = kernel.fs.journal.begun + 1
  logged : after.fs.journal.logged = []
  ended : after.fs.journal.ended = blocks :: kernel.fs.journal.ended

/-- Only the file system has changed, and the offset of a file. -/
structure Advanced (f : Fin nfile) (count : Nat) (kernel after : Kernel) :
    Prop where
  ftable : after.ftable = Function.update kernel.ftable f
    { kernel.ftable f with off := (kernel.ftable f).off + count }
  ofile : after.ofile = kernel.ofile
  cwd : after.cwd = kernel.cwd
  refs : after.fs.refs = kernel.fs.refs
  locks : after.fs.locks = kernel.fs.locks

theorem Advanced.file {count : Nat} (advanced : Advanced f count kernel after) :
    after.ftable f =
      { kernel.ftable f with off := (kernel.ftable f).off + count } := by
  rw [advanced.ftable, Function.update_self]

/-- Bytes were written to an open file at its offset. -/
structure Written (sb : Superblock) (f : Fin nfile) (bytes : List UInt8)
    (kernel after : Kernel) : Prop extends
    Advanced f bytes.length kernel after where
  regular : Regular sb after f
  contents : (after.files sb).contents (kernel.ftable f).ip =
    overwrite ((kernel.files sb).contents (kernel.ftable f).ip)
      (kernel.ftable f).off bytes
  others : ∀ y, y ≠ (kernel.ftable f).ip →
    (after.files sb).inode y = (kernel.files sb).inode y ∧
    ∀ offset, offset < maxfile * bsize →
      (after.files sb).byte y offset = (kernel.files sb).byte y offset
  blocks : ∀ n, freeBlocks sb after.fs.disk +
      ((kernel.files sb).lacks (kernel.ftable f).ip
        (indices (kernel.ftable f).off (bytes.length + n))).card =
    freeBlocks sb kernel.fs.disk +
      ((after.files sb).lacks (kernel.ftable f).ip
        (indices ((kernel.ftable f).off + bytes.length) n)).card

theorem Settled.rejournal {state : State} (settled : Settled sb state)
    (journal : Journal) : Settled sb { state with journal := journal } :=
  ⟨⟨settled.good.layout, settled.good.size, settled.good.reserved,
    settled.good.owns, settled.good.distinct, settled.good.numbers,
    settled.good.used⟩, settled.synced, settled.loaded⟩

theorem beginOp_spec {state : State} {post : Unit → State → Prop}
    {fault : Fault → Prop}
    (next : post () { state with
      journal := { state.journal with begun := state.journal.begun + 1 } }) :
    wp beginOp post fault state :=
  wp_modify.mpr next

theorem endOp_spec {state : State} {post : Unit → State → Prop}
    {fault : Fault → Prop}
    (next : post () { state with
      journal := { state.journal with
        logged := []
        ended := state.journal.logged :: state.journal.ended } }) :
    wp endOp post fault state :=
  wp_modify.mpr next

theorem setFile_spec {post : Unit → Kernel → Prop} {fault : Fault → Prop}
    {change : File → File}
    (next : post () { kernel with
      ftable := Function.update kernel.ftable f (change (kernel.ftable f)) }) :
    wp (setFile f change) post fault kernel :=
  wp_modify.mpr next

theorem overwrite_nil (bytes : List UInt8) (off : Nat) :
    overwrite bytes off [] = bytes := by
  unfold overwrite
  rw [List.append_nil, List.length_nil, Nat.add_zero, List.take_append_drop]

/-- The file system has been written to and is settled again. -/
structure Stored (sb : Superblock) (x off : Nat) (bytes : List UInt8)
    (state after : State) : Prop where
  settled : Settled sb after
  refs : after.refs = state.refs
  locks : after.locks = state.locks
  type : ((after.files sb).inode x).type = ((state.files sb).inode x).type
  noHoles : (after.files sb).NoHoles x
  contents : (after.files sb).contents x =
    overwrite ((state.files sb).contents x) off bytes
  others : ∀ y, y ≠ x →
    (after.files sb).inode y = (state.files sb).inode y ∧
    ∀ offset, offset < maxfile * bsize →
      (after.files sb).byte y offset = (state.files sb).byte y offset
  blocks : ∀ n, freeBlocks sb after.disk +
      ((state.files sb).lacks x (indices off (bytes.length + n))).card =
    freeBlocks sb state.disk +
      ((after.files sb).lacks x (indices (off + bytes.length) n)).card

theorem Stored.nil {state : State} {x off : Nat} (settled : Settled sb state)
    (noHoles : (state.files sb).NoHoles x) :
    Stored sb x off [] state state where
  settled := settled
  refs := rfl
  locks := rfl
  type := rfl
  noHoles := noHoles
  contents := (overwrite_nil _ _).symm
  others := fun _ _ => ⟨rfl, fun _ _ => rfl⟩
  blocks := by
    intro n
    rw [List.length_nil, Nat.zero_add, Nat.add_zero]

theorem Wrote.stored {state after : State} {x off : Nat} {ip : Inode}
    {fresh : List Place} (wrote : Wrote sb x off chunk fresh state after)
    (settled : Settled sb state) (held : Held state x ip)
    (noHoles : (state.files sb).NoHoles x)
    (start : off ≤ ((state.files sb).inode x).size.toNat)
    (inside : off + chunk.length ≤ maxfile * bsize) :
    Stored sb x off chunk state after := by
  have settled' := wrote.settled settled held
  have contents := wrote.contents (by rw [settled.dinode]; exact start) inside
    (by rw [settled.store]; exact noHoles)
  have noHoles' := wrote.noHoles
  have changes := wrote.changes
  have all := wrote.lacking
  rw [settled.store, settled'.store, settled.dinode] at changes
  rw [settled.store] at all
  rw [settled.store, settled'.store] at contents
  rw [settled'.store] at noHoles'
  generalize sized : (state.files sb).setInode x
    { (state.files sb).inode x with
      size := UInt32.ofNat
        (sizeAfter ((state.files sb).inode x) off chunk.length) } = s at changes
  have address : s.address = (state.files sb).address := by
    rw [← sized]
    exact Store.address_resize _ x _
  have lacks : ∀ bns, s.lacks x bns = (state.files sb).lacks x bns := by
    intro bns
    unfold Store.lacks
    rw [address]
  have byte := Store.byte_congr address (by rw [← sized]; rfl)
  rw [← lacks] at all
  constructor
  case settled => exact settled'
  case refs => exact wrote.toFrame.refs_eq held
  case locks => exact wrote.toFrame.locks_eq held
  case type =>
      rw [changes.fields, ← sized, Store.inode_setInode_self]
  case noHoles => exact noHoles'
  case contents => exact contents
  case others =>
      intro y different
      refine ⟨?_, ?_⟩
      · rw [changes.inode y different, ← sized,
          Store.inode_setInode_of_ne different]
      · intro offset small
        rw [changes.byte y offset
          ((Nat.div_lt_iff_lt_mul (by decide)).mpr small), if_neg different,
          byte]
  case blocks =>
      intro n
      obtain ⟨union, disjoint⟩ := Store.lacks_append changes all
        (indices (off + chunk.length) n)
      rw [← lacks, Store.lacks_congr fun _ => mem_indices_add, union,
        Finset.card_union_of_disjoint disjoint,
        List.toFinset_card_of_nodup wrote.nodup, wrote.free]
      omega

theorem Stored.size {state after : State} {x off : Nat}
    (stored : Stored sb x off chunk state after)
    (start : off ≤ ((state.files sb).inode x).size.toNat) :
    off + chunk.length ≤ ((after.files sb).inode x).size.toNat := by
  rw [← Store.length_contents, stored.contents]
  rw [← Store.length_contents] at start
  unfold overwrite
  rw [List.length_append, List.length_append, List.length_take_of_le start]
  omega

/-- Locking and the log do not matter for the files. -/
theorem Stored.moved {state inside mid final : State} {x off : Nat}
    {locks : Nat → Bool} {journal : Journal}
    (first : Moves sb state.refs locks { state with journal := journal } inside)
    (stored : Stored sb x off chunk inside mid)
    (second : Moves sb mid.refs state.locks mid final) :
    Stored sb x off chunk state final := by
  have before : inside.files sb = state.files sb := first.files
  have behind : final.files sb = mid.files sb := second.files
  have disk : inside.disk = state.disk := first.disk
  constructor
  case settled => exact second.settled
  case refs => rw [second.refs, stored.refs, first.refs]
  case locks => exact second.locks
  case type => rw [behind, stored.type, before]
  case noHoles =>
      rw [behind]
      exact stored.noHoles
  case contents => rw [behind, stored.contents, before]
  case others =>
      rw [behind, ← before]
      exact stored.others
  case blocks =>
      rw [behind, ← before, second.disk, ← disk]
      exact stored.blocks

/-- The chunk is in the file and the offset behind it. -/
theorem Regular.written {final : State} {journal : Journal}
    (regular : Regular sb kernel f)
    (stored : Stored sb (kernel.ftable f).ip (kernel.ftable f).off chunk
      kernel.fs final) (idle : journal.logged = [])
    (same : after.fs = { final with journal := journal })
    (ftable : after.ftable = Function.update kernel.ftable f
      { kernel.ftable f with off := (kernel.ftable f).off + chunk.length })
    (ofile : after.ofile = kernel.ofile) (cwd : after.cwd = kernel.cwd) :
    Written sb f chunk kernel after := by
  have file : after.ftable f =
      { kernel.ftable f with off := (kernel.ftable f).off + chunk.length } := by
    rw [ftable, Function.update_self]
  have files : after.files sb = final.files sb := by
    unfold Kernel.files
    rw [same]
    rfl
  have refs : after.fs.refs = kernel.fs.refs := by
    rw [same]
    exact stored.refs
  have locks : after.fs.locks = kernel.fs.locks := by
    rw [same]
    exact stored.locks
  have disk : after.fs.disk = final.disk := by
    rw [same]
  have kernelFiles : kernel.files sb = kernel.fs.files sb := rfl
  constructor
  case toAdvanced => exact ⟨ftable, ofile, cwd, refs, locks⟩
  case regular =>
      constructor
      case settled =>
          rw [same]
          exact stored.settled.rejournal journal
      case opened =>
          rw [file]
          exact regular.opened
      case used =>
          rw [refs, file]
          exact regular.used
      case free =>
          rw [locks, file]
          exact regular.free
      case file =>
          rw [file, files, stored.type]
          exact regular.file
      case noHoles =>
          rw [file, files]
          exact stored.noHoles
      case start =>
          rw [file, files]
          exact stored.size regular.start
      case idle => rw [same, idle]
  case contents =>
      rw [files, stored.contents]
      rfl
  case others =>
      rw [files]
      exact stored.others
  case blocks =>
      rw [files, disk]
      exact stored.blocks

/-- The journal after `end_op`. -/
def Journal.closed (journal : Journal) : Journal :=
  { journal with logged := [], ended := journal.logged :: journal.ended }

/-- `iunlock` and `end_op` behind `writei`. -/
theorem closeChunk_spec (state : State) {x : Nat} {result : Int}
    {post : Int → Kernel → Prop} {fault : Fault → Prop}
    (settled : Settled sb kernel.fs)
    (locked : kernel.fs.locks = Function.update state.locks x true)
    (free : state.locks x = false)
    (next : ∀ final, Moves sb kernel.fs.refs state.locks kernel.fs final →
      post result (kernel.withFs
        { final with journal := kernel.fs.journal.closed })) :
    wp (do
        fs (iunlock x)
        fs endOp
        pure result) post fault kernel := by
  apply wp_bind.mpr
  apply wp_fs.mpr
  apply (iunlock_spec settled locked free).safe.imp
  intro _ final moves
  apply wp_bind.mpr
  apply wp_fs.mpr
  apply endOp_spec
  apply wp_pure.mpr
  have closed := next final moves
  rw [← moves.journal] at closed
  exact closed

/-- The state behind `end_op`. -/
theorem Regular.closed {inside mid final : State} {bytes : List UInt8}
    {locks : Nat → Bool} (ftable : Fin nfile → File)
    (regular : Regular sb kernel f)
    (locking : Moves sb kernel.fs.refs locks
      { kernel.fs with
        journal := { kernel.fs.journal with
          begun := kernel.fs.journal.begun + 1 } } inside)
    (stored : Stored sb (kernel.ftable f).ip (kernel.ftable f).off bytes
      inside mid)
    (journal : mid.journal =
      { inside.journal with logged := mid.journal.logged })
    (unlocking : Moves sb mid.refs kernel.fs.locks mid final)
    (moved : ftable = Function.update kernel.ftable f
      { kernel.ftable f with off := (kernel.ftable f).off + bytes.length }) :
    Section mid.journal.logged kernel
        { kernel with
          fs := { final with journal := mid.journal.closed }
          ftable := ftable } ∧
      Written sb f bytes kernel
        { kernel with
          fs := { final with journal := mid.journal.closed }
          ftable := ftable } := by
  have before := locking.journal
  constructor
  · constructor
    case begun =>
        change mid.journal.begun = _
        rw [journal, before]
    case logged => rfl
    case ended =>
        change mid.journal.logged :: mid.journal.ended = _
        rw [journal, before]
  · exact regular.written (stored.moved locking unlocking) rfl rfl moved rfl
      rfl

/-- What one turn of the loop of `filewrite` does. -/
theorem filewriteChunk_spec (chunk : List UInt8)
    (regular : Regular sb kernel f)
    (short : chunk.length < 2 ^ 31) :
    wp (filewriteChunk sb f chunk)
      (fun result after => ∃ blocks, Section blocks kernel after ∧
        (chunk.length ≤ maxWrite → blocks.toFinset.card ≤ maxOpBlocks) ∧
        if (kernel.ftable f).off + chunk.length ≤ maxfile * bsize then
          result = chunk.length ∧ Written sb f chunk kernel after
        else result = -1 ∧ Written sb f [] kernel after)
      (fun reason =>
        (kernel.ftable f).off + chunk.length ≤ maxfile * bsize ∧
        OutOfBlocks sb kernel.fs
          ((kernel.files sb).lacks (kernel.ftable f).ip
            (indices (kernel.ftable f).off chunk.length)).card reason)
      kernel := by
  have settled := regular.settled.rejournal
    { kernel.fs.journal with begun := kernel.fs.journal.begun + 1 }
  have allocated :
      ((kernel.files sb).inode (kernel.ftable f).ip).allocated := by
    unfold Dinode.allocated
    rw [regular.file]
    decide
  unfold filewriteChunk
  apply wp_bind.mpr
  apply wp_fs.mpr
  apply beginOp_spec
  apply wp_bind.mpr
  apply wp_get.mpr
  dsimp only [Kernel.withFs]
  apply wp_bind.mpr
  apply wp_fs.mpr
  apply (ilock_spec settled regular.used regular.free allocated).safe.imp
  intro _ inside locking
  have files : inside.files sb = kernel.files sb := locking.files
  have locked : inside.locks (kernel.ftable f).ip = true := by
    rw [locking.locks, Function.update_self]
  obtain ⟨ip, held, _, _, _⟩ := locking.settled.held locked
  have noHoles : (inside.files sb).NoHoles (kernel.ftable f).ip := by
    rw [files]
    exact regular.noHoles
  have start : (kernel.ftable f).off ≤
      ((inside.files sb).inode (kernel.ftable f).ip).size.toNat := by
    rw [files]
    exact regular.start
  have write := writei_locked chunk locking.settled locked
    (.inl (by rw [files]; exact regular.file)) noHoles start short
  apply wp_bind.mpr
  apply wp_fs.mpr
  dsimp only [Kernel.withFs]
  apply write.mono
  · intro result mid outcome
    by_cases fits : (kernel.ftable f).off + chunk.length ≤ maxfile * bsize
    · rw [if_pos fits] at outcome
      simp only [if_pos fits]
      obtain ⟨rfl, fresh, wrote, settled', refs, locks⟩ := outcome
      have stored := wrote.stored locking.settled held noHoles start fits
      have few := wrote.card_logged_le (by rw [locking.journal, regular.idle])
        (by rw [locking.settled.store]; exact noHoles)
        (by rw [locking.settled.dinode]; exact start)
      have finish : ∀ ftable, ftable = Function.update kernel.ftable f
          { kernel.ftable f with
            off := (kernel.ftable f).off + chunk.length } →
          wp (do
              fs (iunlock (kernel.ftable f).ip)
              fs endOp
              pure (chunk.length : Int))
            (fun result after => ∃ blocks, Section blocks kernel after ∧
              (chunk.length ≤ maxWrite →
                blocks.toFinset.card ≤ maxOpBlocks) ∧
              result = chunk.length ∧ Written sb f chunk kernel after)
            (fun reason =>
              (kernel.ftable f).off + chunk.length ≤ maxfile * bsize ∧
              OutOfBlocks sb kernel.fs
                ((kernel.files sb).lacks (kernel.ftable f).ip
                  (indices (kernel.ftable f).off chunk.length)).card reason)
            { kernel with fs := mid, ftable := ftable } := by
        intro ftable moved
        refine closeChunk_spec kernel.fs settled' ?_ regular.free ?_
        · rw [locks, locking.locks]
          rfl
        · intro final unlocking
          obtain ⟨transaction, written⟩ := regular.closed ftable locking
            stored wrote.journal unlocking moved
          exact ⟨_, transaction, few, rfl, written⟩
      apply wp_bind.mpr
      by_cases some : (chunk.length : Int) > 0
      · rw [if_pos some]
        apply setFile_spec
        have sum : uintAdd (kernel.ftable f).off chunk.length =
            (kernel.ftable f).off + chunk.length := by
          have limit : maxfile * bsize < 2 ^ 32 := by decide
          unfold uintAdd
          omega
        apply finish
        rw [Int.toNat_natCast, sum]
      · rw [if_neg some]
        apply wp_pure.mpr
        apply finish kernel.ftable
        have nothing : chunk.length = 0 := by omega
        rw [nothing, Nat.add_zero, Function.update_eq_self]
    · rw [if_neg fits] at outcome
      simp only [if_neg fits]
      obtain ⟨rfl, rfl⟩ := outcome
      apply wp_bind.mpr
      rw [if_neg (by decide)]
      apply wp_pure.mpr
      refine closeChunk_spec kernel.fs locking.settled locking.locks
        regular.free ?_
      intro final unlocking
      obtain ⟨transaction, written⟩ := regular.closed kernel.ftable locking
        (.nil locking.settled noHoles) rfl unlocking
        (Function.update_eq_self f kernel.ftable).symm
      refine ⟨_, transaction, fun _ => ?_, rfl, written⟩
      rw [locking.journal, regular.idle]
      exact Nat.zero_le _
  · rintro reason ⟨fits, lacking⟩
    refine ⟨fits, lacking.reason, ?_⟩
    have less := lacking.short
    rw [locking.disk, files] at less
    exact less

/-! ## The loop -/

theorem overwrite_append {bytes first : List UInt8} {off : Nat}
    (start : off ≤ bytes.length) (second : List UInt8) :
    overwrite (overwrite bytes off first) (off + first.length) second =
      overwrite bytes off (first ++ second) := by
  have len : (bytes.take off).length = off := List.length_take_of_le start
  have len' : (bytes.take off ++ first).length = off + first.length := by
    rw [List.length_append, len]
  unfold overwrite
  rw [← len', List.take_left, List.append_assoc (bytes.take off) first second,
    len', List.drop_append, List.drop_eq_nil_of_le (by rw [len']; omega),
    List.nil_append, List.drop_drop, len', List.length_append]
  congr 2
  omega

theorem Written.trans {first second : List UInt8}
    (one : Written sb f first kernel after)
    (two : Written sb f second after last)
    (start : (kernel.ftable f).off ≤
      ((kernel.files sb).inode (kernel.ftable f).ip).size.toNat) :
    Written sb f (first ++ second) kernel last := by
  have file := one.file
  have contents := two.contents
  have others := two.others
  have blocks := two.blocks
  rw [file] at contents others blocks
  constructor
  case toAdvanced =>
      constructor
      case ftable =>
          rw [two.ftable, file, one.ftable, Function.update_idem,
            List.length_append, Nat.add_assoc]
      case ofile => rw [two.ofile, one.ofile]
      case cwd => rw [two.cwd, one.cwd]
      case refs => rw [two.refs, one.refs]
      case locks => rw [two.locks, one.locks]
  case regular => exact two.regular
  case contents =>
      rw [contents, one.contents]
      apply overwrite_append
      rw [Store.length_contents]
      exact start
  case others =>
      intro y different
      obtain ⟨inode, bytes⟩ := others y different
      obtain ⟨inode', bytes'⟩ := one.others y different
      refine ⟨inode.trans inode', ?_⟩
      intro offset small
      exact (bytes offset small).trans (bytes' offset small)
  case blocks =>
      intro n
      have early := one.blocks (second.length + n)
      have late := blocks n
      rw [List.length_append, Nat.add_assoc, ← Nat.add_assoc _ first.length]
      dsimp only at late
      omega

/-- How many bytes `filewrite` writes: all of them, or the whole chunks below
the largest size of a file. -/
def accepted (off n : Nat) : Nat :=
  if off + n ≤ maxfile * bsize then n
  else (maxfile * bsize - off) / maxWrite * maxWrite

theorem accepted_zero {off : Nat} (start : off ≤ maxfile * bsize) :
    accepted off 0 = 0 :=
  if_pos start

theorem accepted_add {off n : Nat}
    (fits : off + min n maxWrite ≤ maxfile * bsize) :
    accepted off n =
      min n maxWrite +
        accepted (off + min n maxWrite) (n - min n maxWrite) := by
  have size : maxWrite = 1536 := rfl
  have limit : maxfile * bsize = 71680 := rfl
  unfold accepted
  rw [size, limit] at fits ⊢
  split <;> split <;> omega

theorem accepted_of_gt {off n : Nat} (start : off ≤ maxfile * bsize)
    (exceeds : maxfile * bsize < off + min n maxWrite) :
    accepted off n = 0 := by
  have size : maxWrite = 1536 := rfl
  have limit : maxfile * bsize = 71680 := rfl
  unfold accepted
  rw [limit] at start
  rw [size, limit] at exceeds ⊢
  split <;> omega

theorem Regular.refused (regular : Regular sb kernel f) :
    Written sb f [] kernel kernel :=
  regular.written (.nil regular.settled regular.noHoles) regular.idle rfl
    (Function.update_eq_self f kernel.ftable).symm rfl rfl

/-- Sections that each fit their reservation. -/
structure Sections (sections : List (List Nat)) (kernel after : Kernel) :
    Prop where
  begun : after.fs.journal.begun =
    kernel.fs.journal.begun + sections.length
  ended : after.fs.journal.ended = sections ++ kernel.fs.journal.ended
  fit : ∀ blocks ∈ sections, blocks.toFinset.card ≤ maxOpBlocks

theorem Sections.nil : Sections [] kernel kernel :=
  ⟨rfl, rfl, nofun⟩

theorem Section.cons {blocks : List Nat} {sections : List (List Nat)}
    (one : Section blocks kernel after)
    (fit : blocks.toFinset.card ≤ maxOpBlocks)
    (more : Sections sections after last) :
    Sections (sections ++ [blocks]) kernel last := by
  constructor
  case begun =>
      rw [more.begun, one.begun, List.length_append, List.length_singleton]
      omega
  case ended =>
      rw [more.ended, one.ended, List.append_assoc, List.singleton_append]
  case fit =>
      intro each member
      rw [List.mem_append, List.mem_singleton] at member
      rcases member with later | rfl
      · exact more.fit each later
      · exact fit

theorem Store.card_lacks_add (s : Store) (x off m n : Nat) :
    (s.lacks x (indices off m)).card ≤
      (s.lacks x (indices off (m + n))).card := by
  apply Finset.card_le_card
  intro p member
  rw [Store.mem_lacks] at member ⊢
  obtain ⟨listed, missing⟩ := member
  rw [List.mem_flatMap] at listed ⊢
  obtain ⟨bn, index, place⟩ := listed
  exact ⟨⟨bn, mem_indices_add.mpr (List.mem_append_left _ index), place⟩,
    missing⟩

/-- What the loop of `filewrite` does with the bytes from `i` on. -/
theorem filewriteLoop_spec {src : List UInt8} (short : src.length < 2 ^ 31)
    {fuel i : Nat} (enough : src.length - i ≤ fuel)
    (regular : Regular sb kernel f) :
    wp (filewriteLoop sb f src fuel i)
      (fun result after =>
        result = i + accepted (kernel.ftable f).off (src.length - i) ∧
        Written sb f
          ((src.drop i).take (accepted (kernel.ftable f).off (src.length - i)))
          kernel after ∧
        ∃ sections, Sections sections kernel after)
      (OutOfBlocks sb kernel.fs
        ((kernel.files sb).lacks (kernel.ftable f).ip
          (indices (kernel.ftable f).off
            (accepted (kernel.ftable f).off (src.length - i)))).card)
      kernel := by
  induction fuel generalizing kernel i with
  | zero =>
      have past : src.length - i = 0 := by omega
      unfold filewriteLoop
      rw [past, accepted_zero (regular.start.trans regular.noHoles.size_le),
        List.take_zero]
      exact wp_pure.mpr ⟨rfl, regular.refused, [], .nil⟩
  | succ fuel ih =>
      have start := regular.start.trans regular.noHoles.size_le
      unfold filewriteLoop
      split
      case isFalse past =>
          have past : src.length - i = 0 := by omega
          rw [past, accepted_zero start, List.take_zero]
          exact wp_pure.mpr ⟨rfl, regular.refused, [], .nil⟩
      case isTrue more =>
          have len : ((src.drop i).take
              (min (src.length - i) maxWrite)).length =
              min (src.length - i) maxWrite := by
            rw [List.length_take, List.length_drop]
            omega
          have chunk := filewriteChunk_spec
            ((src.drop i).take (min (src.length - i) maxWrite)) regular
            (by omega)
          rw [len] at chunk
          apply wp_bind.mpr
          apply chunk.mono
          · rintro result after ⟨blocks, transaction, fit, outcome⟩
            have fit := fit (Nat.min_le_right _ _)
            split at outcome
            case isTrue fits =>
                obtain ⟨rfl, written⟩ := outcome
                have file := written.file
                have rest := ih (i := i + min (src.length - i) maxWrite)
                  (by have : maxWrite = 1536 := rfl; omega) written.regular
                rw [file, len, ← Nat.sub_sub] at rest
                rw [if_neg (by omega), if_neg (not_not.mpr rfl),
                  Int.toNat_natCast, accepted_add fits]
                apply rest.mono
                · rintro result last ⟨count, behind, sections, transactions⟩
                  refine ⟨by rw [count, Nat.add_assoc], ?_, _,
                    transaction.cons fit transactions⟩
                  rw [List.take_add, List.drop_drop]
                  exact written.trans behind regular.start
                · intro reason lacking
                  refine ⟨lacking.reason, ?_⟩
                  have less := lacking.short
                  have blocks := written.blocks (accepted
                    ((kernel.ftable f).off + min (src.length - i) maxWrite)
                    (src.length - i - min (src.length - i) maxWrite))
                  rw [len] at blocks
                  dsimp only at less
                  omega
            case isFalse exceeds =>
                obtain ⟨rfl, written⟩ := outcome
                rw [if_pos (by decide),
                  accepted_of_gt start (not_le.mp exceeds), List.take_zero]
                exact wp_pure.mpr ⟨rfl, written, _, transaction.cons fit .nil⟩
          · rintro reason ⟨fits, lacking⟩
            refine ⟨lacking.reason, ?_⟩
            have more := lacking.short
            rw [accepted_add fits]
            exact more.trans_le (Store.card_lacks_add _ _ _ _ _)

/-! ## The whole call -/

/-- What `filewrite` does with an open file that may be written. -/
theorem filewrite_spec {pipes : Pipes} {src : List UInt8}
    (regular : Regular sb kernel f)
    (writable : (kernel.ftable f).writable = true)
    (short : src.length < 2 ^ 31) :
    wp (filewrite sb pipes f src)
      (fun result after =>
        (result = if (kernel.ftable f).off + src.length ≤ maxfile * bsize
          then (src.length : Int) else -1) ∧
        Written sb f
          (src.take (accepted (kernel.ftable f).off src.length)) kernel after ∧
        ∃ sections, Sections sections kernel after)
      (OutOfBlocks sb kernel.fs
        ((kernel.files sb).lacks (kernel.ftable f).ip
          (indices (kernel.ftable f).off
            (accepted (kernel.ftable f).off src.length))).card)
      kernel := by
  have loop := filewriteLoop_spec short (i := 0) (Nat.sub_le _ _) regular
  rw [Nat.sub_zero, Nat.zero_add, List.drop_zero] at loop
  unfold filewrite
  apply wp_bind.mpr
  apply wp_get.mpr
  rw [if_neg (by rw [writable]; decide), regular.opened]
  apply wp_bind.mpr
  apply loop.imp
  rintro i after ⟨rfl, written, transactions⟩
  refine wp_pure.mpr ⟨?_, written, transactions⟩
  unfold accepted
  split
  · rw [if_pos rfl]
  · rw [if_neg]
    have start := regular.start.trans regular.noHoles.size_le
    have whole := Nat.div_mul_le_self
      (maxfile * bsize - (kernel.ftable f).off) maxWrite
    omega

/-- Every section of `filewrite` passes at most `MAXOPBLOCKS` blocks to
`log_write`. -/
theorem filewrite_fits_reservation (pipes : Pipes) (src : List UInt8)
    (short : src.length < 2 ^ 31) (regular : Regular sb kernel f) :
    (∀ chunk : List UInt8, chunk.length ≤ maxWrite →
      wp (filewriteChunk sb f chunk)
        (fun _ after => Regular sb after f ∧
          ∃ blocks, Section blocks kernel after ∧
            blocks.toFinset.card ≤ maxOpBlocks)
        (fun reason => reason = .panic "balloc: out of blocks") kernel) ∧
    wp (filewrite sb pipes f src)
      (fun _ after => ∃ sections, Sections sections kernel after)
      (fun reason => reason = .panic "balloc: out of blocks") kernel := by
  constructor
  · intro chunk fits
    have size : maxWrite = 1536 := rfl
    apply (filewriteChunk_spec chunk regular (by omega)).mono
    · rintro result after ⟨blocks, transaction, fit, outcome⟩
      refine ⟨?_, blocks, transaction, fit fits⟩
      split at outcome
      · exact outcome.2.regular
      · exact outcome.2.regular
    · exact fun reason lacking => lacking.2.reason
  · by_cases writable : (kernel.ftable f).writable = true
    · apply (filewrite_spec regular writable short).mono
      · exact fun _ _ outcome => outcome.2.2
      · exact fun reason lacking => lacking.reason
    · unfold filewrite
      apply wp_bind.mpr
      apply wp_get.mpr
      rw [if_pos (Bool.eq_false_iff.mpr writable)]
      exact wp_pure.mpr ⟨[], .nil⟩

/-- An empty file of a new image, open for writing. -/
theorem exists_regular : ∃ kernel : Kernel,
    Regular Mkfs.sb kernel 0 ∧ (kernel.ftable 0).writable = true ∧
      (kernel.ftable 0).off = 0 := by
  have few : (Mkfs.emptyFiles 1).length + 1 < Mkfs.ninodes := by decide
  obtain ⟨image, success⟩ :=
    Mkfs.main_exits few ⟨by decide, by decide, by decide⟩
  have made := (Mkfs.main_spec few).ok success
  have sound := made.sound few (by decide)
  have got : wp (iget 2) _ (fun _ => False) (Mkfs.booted image) :=
    (iget_spec sound.settled (x := 2) (by decide)).mono (fun _ _ => id)
      fun _ crowded => absurd crowded.full
        (Nat.not_le.mpr (by decide : 1 < ninode))
  obtain ⟨_, state, _, _, moves⟩ := got.returns
  have file := made.file 0 _ rfl
  have files : state.files Mkfs.sb = storeOf Mkfs.sb image.disk := moves.files
  refine ⟨⟨state, fun _ => ⟨.inode, 1, true, true, 0, 2, 0⟩, fun _ => none,
    rootino⟩, ⟨moves.settled, rfl, ?_, ?_, ?_, ?_, ?_, ?_⟩, rfl, rfl⟩
  · change state.refs 2 ≠ 0
    rw [moves.refs]
    exact Nat.succ_ne_zero _
  · change state.locks 2 = false
    rw [moves.locks, sound.unlocked]
  · change ((state.files Mkfs.sb).inode 2).type = tFile
    rw [files]
    exact file.type
  · change (state.files Mkfs.sb).NoHoles 2
    intro bn below
    rw [files, file.size] at below
    exact absurd below (Nat.not_lt_zero _)
  · exact Nat.zero_le _
  · change state.journal.logged = []
    rw [moves.journal]
    rfl

/-- Twenty thousand bytes are written in sections that fit. -/
theorem filewrite_fits_reservation_large : ∃ kernel : Kernel,
    ∀ pipes, wp (filewrite Mkfs.sb pipes 0 (List.replicate 20000 7))
      (fun _ after => ∃ sections, Sections sections kernel after)
      (fun reason => reason = .panic "balloc: out of blocks") kernel := by
  obtain ⟨kernel, regular, _⟩ := exists_regular
  refine ⟨kernel, fun pipes => ?_⟩
  exact (filewrite_fits_reservation pipes (List.replicate 20000 7)
    (by rw [List.length_replicate]; decide) regular).2

end Xv6.Fs
