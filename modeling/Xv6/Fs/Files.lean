import Xv6.Mkfs.Booted

/-!
# Files as lists of bytes

`writei` puts the bytes of its source over those of the file from an offset on
and makes the file longer if they reach behind its end.  What `readi` returns
is a piece of that list.
-/

namespace Xv6.Fs

open Lib

variable {sb : Superblock} {state after last : State} {x y off n : Nat}
  {ip : Inode}

/-! ## Writing an inode back -/

/-- An inode was changed in memory and written back. -/
structure Updated (sb : Superblock) (x : Nat) (dinode : Dinode)
    (state after : State) : Prop extends Frame x dinode state after where
  good : Good sb after
  disk : after.disk = Function.update state.disk (iblock sb x)
    (putDinode (state.disk (iblock sb x)) x dinode)
  store : after.store sb = (state.store sb).setInode x dinode
  logged : after.journal.logged = iblock sb x :: state.journal.logged

theorem Good.assigned {change : Inode → Inode} (good : Good sb state)
    (keeps : ∀ ip, (change ip).inum = ip.inum)
    (refs : ∀ ip, ip.ref ≠ 0 → (change ip).ref ≠ 0)
    (address : ((state.assigned x change).store sb).address =
      (state.store sb).address) : Good sb (state.assigned x change) := by
  refine good.congr rfl address (State.inums_assigned keeps) ?_ rfl
  intro new member
  obtain ⟨old, oldMember, _, same | ⟨_, same⟩⟩ :=
    State.mem_assigned keeps member
  · rw [same]
    exact good.used old oldMember
  · rw [same]
    exact refs old (good.used old oldMember)

/-- `iupdate` behind a change of the inode. -/
theorem update_spec {post : Unit → State → Prop} {fault : Fault → Prop}
    {change : Dinode → Dinode} (good : Good sb state) (held : Held state x ip)
    (address : ((state.store sb).setInode x (change ip.dinode)).address =
      (state.store sb).address)
    (next : ∀ after, Updated sb x (change ip.dinode) state after →
      post () after) :
    wp (setDinode x change) (fun _ => wp (iupdate sb x) post fault) fault
      state := by
  generalize changes : (fun ip : Inode =>
    { ip with dinode := change ip.dinode }) = assign
  have keeps : ∀ ip, (assign ip).inum = ip.inum := by
    intro ip
    rw [← changes]
  have inside := held.number good
  have own : (state.assigned x assign).cached x = some (assign ip) :=
    State.cached_assigned_self held.cached keeps
  have valid : (assign ip).valid = true := by
    rw [← changes]
    exact held.valid
  have store : (state.assigned x assign).store sb =
      (state.store sb).setInode x (change ip.dinode) := by
    rw [held.store_assigned keeps valid, ← changes]
  have good' : Good sb (state.assigned x assign) := by
    apply good.assigned keeps
    · intro ip used
      rw [← changes]
      exact used
    · rw [store, address]
  have held' : Held (state.assigned x assign) x (assign ip) := ⟨own, valid⟩
  unfold setDinode
  rw [changes]
  apply assign_spec
  unfold iupdate
  apply wp_bind.mpr
  apply bread_spec (good'.iblock_lt_fssize inside)
  apply wp_bind.mpr
  apply fetch_spec own
  apply logWrite_spec
  apply next
  have written := held'.store_write_inode good.layout inside (assign ip).dinode
  have dinode : (assign ip).dinode = change ip.dinode := by
    rw [← changes]
  exact
    { own := by
        intro ip' cached
        rw [held.cached] at cached
        cases cached
        change (state.assigned x assign).cached x = _
        rw [own, ← changes]
      others := fun y different =>
        State.cached_assigned_of_ne different keeps
      slots := List.length_map _
      devsw := rfl
      fssize := rfl
      journal := rfl
      good := by
        refine good'.congr ?_ ?_ rfl good'.used rfl
        · exact marked_write_inode good.layout inside _
        · rw [written]
      disk := by
        rw [← dinode]
        rfl
      store := by
        rw [written, store]
      logged := rfl }

variable {dinode : Dinode}

theorem Updated.storeOf (updated : Updated sb x dinode state after)
    (layout : Layout sb) (inside : x < sb.ninodes.toNat) :
    storeOf sb after.disk = (storeOf sb state.disk).setInode x dinode := by
  rw [updated.disk, storeOf_write_inode layout inside]

theorem Updated.marked (updated : Updated sb x dinode state after)
    (layout : Layout sb) (inside : x < sb.ninodes.toNat) :
    Marked sb after.disk = Marked sb state.disk := by
  rw [updated.disk, marked_write_inode layout inside]

theorem Frame.held (frame : Frame x dinode state after)
    (held : Held state x ip) : Held after x { ip with dinode := dinode } :=
  ⟨frame.own ip held.cached, held.valid⟩

/-! ## `writei` -/

/-- The size of a file after a write. -/
def sizeAfter (dinode : Dinode) (off n : Nat) : Nat :=
  max dinode.size.toNat (off + n)

/-- `writei` refuses to write. -/
def Refused (dinode : Dinode) (off n : Nat) : Prop :=
  off > dinode.size.toNat ∨ 2 ^ 32 ≤ off + n ∨ maxfile * bsize < off + n

/-- A file without holes was written to. -/
structure Wrote (sb : Superblock) (x off : Nat) (src : List UInt8)
    (fresh : List Place) (state after : State) : Prop extends
    Frame x (after.dinode sb x) state after where
  good : Good sb after
  changes : ((state.store sb).setInode x
    { state.dinode sb x with
      size := UInt32.ofNat
        (sizeAfter (state.dinode sb x) off src.length) }).Changes
      (after.store sb) x fresh (spliced ((state.store sb).byte x) off src)
  nodup : fresh.Nodup
  lacking : fresh.toFinset =
    (state.store sb).lacks x (indices off src.length)
  inodes : ∀ y, y ≠ x →
    (storeOf sb after.disk).inode y = (storeOf sb state.disk).inode y
  synced : (storeOf sb state.disk).inode x = state.dinode sb x →
    (storeOf sb after.disk).inode x = after.dinode sb x
  noHoles : (after.store sb).NoHoles x
  logs : ∀ b ∈ after.journal.logged, b ∈ state.journal.logged ∨
    b = iblock sb x ∨
    (∃ p ∈ (indices off src.length).flatMap footprint,
      (after.store sb).address (x, p) = b ∧ b ≠ 0) ∨
    ∃ p ∈ fresh, b = bblock sb ((after.store sb).address (x, p))
  free : freeBlocks sb state.disk = freeBlocks sb after.disk + fresh.length

/-- Every place of the range has a block now. -/
theorem Extended.filled {fresh places : List Place}
    {contents : Nat → UInt8} {bns : List Nat}
    (extended : Extended sb x places fresh contents state after)
    (lacking : fresh.toFinset = (state.store sb).lacks x bns) {bn : Nat}
    (member : bn ∈ bns) : (after.store sb).block x bn ≠ 0 := by
  by_cases nothing : (state.store sb).address (x, .ofIndex bn) = 0
  · apply extended.changes.filled
    rw [← List.mem_toFinset, lacking, Store.mem_lacks]
    refine ⟨List.mem_flatMap.mpr ⟨bn, member, ?_⟩, nothing⟩
    unfold footprint
    split <;> simp
  · exact extended.changes.ne_zero nothing

theorem Store.Changes.resize {s s' : Store} {fresh : List Place}
    {contents : Nat → UInt8} (changes : s.Changes s' x fresh contents)
    (size : UInt32) :
    (s.setInode x { s.inode x with size := size }).Changes
      (s'.setInode x { s'.inode x with size := size }) x fresh contents := by
  have address := s.address_resize x size
  have address' := s'.address_resize x size
  have byte := Store.byte_congr address rfl
  have byte' := Store.byte_congr address' rfl
  constructor
  case inode =>
      intro y different
      rw [Store.inode_setInode_of_ne different,
        Store.inode_setInode_of_ne different, changes.inode y different]
  case fields =>
      rw [Store.inode_setInode_self, Store.inode_setInode_self, changes.fields]
  case byte =>
      intro y offset inside
      rw [byte', byte, changes.byte y offset inside]
  case kept =>
      intro y p old
      rw [address, address', changes.kept y p old]
  case nothing =>
      intro p member
      rw [address, changes.nothing p member]
  case filled =>
      intro p member
      rw [address']
      exact changes.filled p member

theorem Store.Present.lacks {s : Store} (present : s.Present x off n) :
    s.lacks x (indices off n) = ∅ := by
  rw [Finset.eq_empty_iff_forall_notMem]
  intro p member
  obtain ⟨listed, none⟩ := Store.mem_lacks.mp member
  obtain ⟨bn, index, place⟩ := List.mem_flatMap.mp listed
  have missing := Store.mem_missing.mpr ⟨place, none⟩
  rw [Store.missing_of_block (present bn index).2] at missing
  cases missing

/-- Without new blocks the inode stays as it is. -/
theorem Extended.dinode_of_nil {places : List Place}
    {contents : Nat → UInt8}
    (extended : Extended sb x places [] contents state after)
    (typed : (state.dinode sb x).allocated) :
    after.dinode sb x = state.dinode sb x := by
  have typed' : (after.dinode sb x).allocated := by
    rw [extended.allocated]
    exact typed
  have addrs : (after.dinode sb x).addrs = (state.dinode sb x).addrs := by
    funext i
    have kept := extended.changes.kept x (.slot i) fun _ => List.not_mem_nil
    rw [Store.address_slot typed', Store.address_slot typed,
      UInt32.toNat_inj] at kept
    exact kept
  have fields : after.dinode sb x =
      { state.dinode sb x with addrs := (after.dinode sb x).addrs } :=
    extended.changes.fields
  rw [fields, addrs]

theorem UInt32.ofNat_of_le {k : Nat} (fits : k ≤ maxfile * bsize) :
    (UInt32.ofNat k).toNat = k := by
  apply UInt32.toNat_ofNat_of_lt'
  have small : maxfile * bsize < UInt32.size := by decide
  omega

section Writei

variable {src : List UInt8} (good : Good sb state) (held : Held state x ip)
  (typed : ip.dinode.allocated) (noHoles : (state.store sb).NoHoles x)
  (start : off ≤ ip.dinode.size.toNat)

include held noHoles start

/-- The file has become longer. -/
theorem Wrote.grow (inside : off + src.length ≤ maxfile * bsize)
    (some : 0 < src.length)
    (longer : ip.dinode.size.toNat < off + src.length)
    (spliced : Spliced sb x off src state after)
    (updated : Updated sb x
      { after.dinode sb x with size := UInt32.ofNat (off + src.length) }
      after last) (number : x < sb.ninodes.toNat) :
    ∃ fresh, Wrote sb x off src fresh state last := by
  obtain ⟨fresh, nodup, lacking, extended⟩ := spliced
  have layout := extended.good.layout
  have old : state.dinode sb x = ip.dinode := held.dinode
  have size : sizeAfter (state.dinode sb x) off src.length =
      off + src.length := by
    unfold sizeAfter
    rw [old]
    omega
  have own : last.dinode sb x =
      { after.dinode sb x with size := UInt32.ofNat (off + src.length) } := by
    change (last.store sb).inode x = _
    rw [updated.store, Store.inode_setInode_self]
  have address : (last.store sb).address = (after.store sb).address := by
    rw [updated.store]
    exact Store.address_resize _ x _
  have disk := updated.storeOf layout number
  refine ⟨fresh, ?_⟩
  exact
    { toFrame := by
        rw [own]
        exact extended.toFrame.trans updated.toFrame
      good := updated.good
      changes := by
        rw [size, updated.store]
        exact extended.changes.resize _
      nodup := nodup
      lacking := lacking
      inodes := by
        intro y different
        rw [disk, Store.inode_setInode_of_ne different, extended.inodes]
      synced := by
        intro _
        rw [disk, Store.inode_setInode_self, own]
      noHoles := by
        intro bn below
        have size' : ((last.store sb).inode x).size.toNat =
            off + src.length := by
          change (last.dinode sb x).size.toNat = _
          rw [own]
          exact UInt32.ofNat_of_le inside
        rw [size'] at below
        unfold Store.block
        rw [address]
        by_cases early : bn * bsize < ip.dinode.size.toNat
        · obtain ⟨small, block⟩ := noHoles bn (by
            change _ < (state.dinode sb x).size.toNat
            rw [old]
            exact early)
          exact ⟨small, extended.changes.ne_zero block⟩
        · refine ⟨?_, extended.filled lacking (mem_indices.mpr ⟨some, ?_, below⟩)⟩
          · unfold maxfile ndirect nindirect bsize at *
            omega
          · unfold bsize at *
            omega
      logs := by
        intro b member
        rw [updated.logged] at member
        rcases List.mem_cons.mp member with rfl | member
        · exact .inr (.inl rfl)
        · rw [address]
          rcases extended.logs b member with old | new
          · exact .inl old
          · exact .inr (.inr new)
      free := by
        rw [extended.free]
        unfold freeBlocks
        simp only [updated.marked layout number] }

/-- The write stays inside the file. -/
theorem Wrote.inside (shorter : ¬ (0 < src.length ∧
      ip.dinode.size.toNat < off + src.length))
    (typed : ip.dinode.allocated)
    (spliced : Spliced sb x off src state after) :
    ∃ fresh, Wrote sb x off src fresh state after := by
  obtain ⟨fresh, nodup, lacking, extended⟩ := spliced
  have old : state.dinode sb x = ip.dinode := held.dinode
  have inode : (state.store sb).inode x = ip.dinode := old
  have size : sizeAfter (state.dinode sb x) off src.length =
      ip.dinode.size.toNat := by
    unfold sizeAfter
    rw [old]
    omega
  have same : (state.store sb).setInode x
      { state.dinode sb x with
        size := UInt32.ofNat
          (sizeAfter (state.dinode sb x) off src.length) } =
        state.store sb := by
    rw [size, UInt32.ofNat_toNat, ← old]
    exact Store.ext (Function.update_eq_self _ _) rfl
  have present : (state.store sb).Present x off src.length := by
    apply noHoles.present
    rw [inode]
    omega
  rw [present.lacks, List.toFinset_eq_empty_iff] at lacking
  subst lacking
  have kept := extended.dinode_of_nil (by rw [old]; exact typed)
  exact ⟨[],
    { toFrame := extended.toFrame
      good := extended.good
      changes := by
        rw [same]
        exact extended.changes
      nodup := nodup
      lacking := present.lacks.symm
      inodes := by
        intro y _
        rw [extended.inodes]
      synced := by
        intro synced
        rw [extended.inodes, synced, kept]
      noHoles := by
        intro bn below
        change _ < (after.dinode sb x).size.toNat at below
        rw [kept] at below
        obtain ⟨small, block⟩ := noHoles bn below
        exact ⟨small, extended.changes.ne_zero block⟩
      logs := by
        intro b member
        rcases extended.logs b member with early | new
        · exact .inl early
        · exact .inr (.inr new)
      free := extended.free }⟩

include good typed

theorem writei_spec (plain : ip.dinode.type ≠ tDev) (second : src.length < 2 ^ 32)
    (accepted : ¬ Refused ip.dinode off src.length) :
    wp (writei sb x src off)
      (fun result after => result = src.length ∧
        ∃ fresh, Wrote sb x off src fresh state after)
      (OutOfBlocks sb state
        ((state.store sb).lacks x (indices off src.length)).card)
      state := by
  unfold Refused at accepted
  have inside : off + src.length ≤ maxfile * bsize := by omega
  have sum : uintAdd off src.length = off + src.length := by
    unfold uintAdd
    omega
  unfold writei
  apply wp_bind.mpr
  apply fetch_spec held.cached
  dsimp only
  rw [if_neg plain, sum, if_neg (by omega), if_neg (by omega)]
  apply (writeiLoop_spec _ _ _ _ _ le_rfl good held typed inside).bind
  intro _ after spliced
  apply wp_bind.mpr
  by_cases longer : src.length > 0 ∧ off + src.length > ip.dinode.size.toNat
  · rw [if_pos longer]
    obtain ⟨fresh, _, _, extended⟩ := id spliced
    unfold grow
    apply wp_bind.mpr
    apply update_spec extended.good (extended.held held)
    · exact Store.address_resize (after.store sb) x _
    · intro last updated
      apply wp_pure.mpr
      exact ⟨rfl, Wrote.grow held noHoles start inside longer.1 longer.2
        spliced updated (held.number good)⟩
  · rw [if_neg longer]
    apply wp_pure.mpr
    apply wp_pure.mpr
    exact ⟨rfl, Wrote.inside held noHoles start longer typed spliced⟩

omit good typed noHoles start in
theorem writei_refused (plain : ip.dinode.type ≠ tDev) (first : off < 2 ^ 32)
    (second : src.length < 2 ^ 32)
    (refused : Refused ip.dinode off src.length) :
    wp (writei sb x src off)
      (fun result after => result = -1 ∧ after = state) (fun _ => False)
      state := by
  unfold Refused at refused
  unfold writei
  apply wp_bind.mpr
  apply fetch_spec held.cached
  dsimp only
  rw [if_neg plain]
  simp only [uintAdd_lt_iff first second]
  by_cases early : off > ip.dinode.size.toNat ∨ 2 ^ 32 ≤ off + src.length
  · rw [if_pos early]
    exact wp_pure.mpr ⟨rfl, rfl⟩
  · have sum : uintAdd off src.length = off + src.length := by
      unfold uintAdd
      omega
    rw [if_neg early, sum, if_pos (by omega)]
    exact wp_pure.mpr ⟨rfl, rfl⟩

end Writei

theorem Wrote.settled {src : List UInt8} {fresh : List Place}
    (wrote : Wrote sb x off src fresh state after) (settled : Settled sb state)
    (held : Held state x ip) : Settled sb after :=
  wrote.toFrame.settled held settled wrote.good wrote.inodes
    (wrote.synced (settled.dinode x).symm)

/-- `writei` to a file without holes whose lock is held. -/
theorem writei_locked (src : List UInt8) (settled : Settled sb state)
    (locked : state.locks x = true)
    (file : ((state.files sb).inode x).type = tFile ∨
      ((state.files sb).inode x).type = tDir)
    (noHoles : (state.files sb).NoHoles x)
    (start : off ≤ ((state.files sb).inode x).size.toNat)
    (short : src.length < 2 ^ 31) :
    wp (writei sb x src off)
      (fun result after =>
        if off + src.length ≤ maxfile * bsize then
          result = src.length ∧ ∃ fresh,
            Wrote sb x off src fresh state after ∧ Settled sb after ∧
            after.refs = state.refs ∧ after.locks = state.locks
        else result = -1 ∧ after = state)
      (fun reason => off + src.length ≤ maxfile * bsize ∧
        OutOfBlocks sb state
          ((state.files sb).lacks x (indices off src.length)).card reason)
      state := by
  obtain ⟨ip, held, _, _, dinode⟩ := settled.held locked
  have size := noHoles.size_le
  have limit : maxfile * bsize < 2 ^ 31 := by decide
  have typed : ip.dinode.allocated := by
    unfold Dinode.allocated
    rw [dinode]
    rcases file with type | type <;> rw [type] <;> decide
  have plain : ip.dinode.type ≠ tDev := by
    rw [dinode]
    rcases file with type | type <;> rw [type] <;> decide
  have start' : off ≤ ip.dinode.size.toNat := by
    rw [dinode]
    exact start
  have refused : Refused ip.dinode off src.length ↔
      ¬ off + src.length ≤ maxfile * bsize := by
    unfold Refused
    omega
  rw [← settled.store] at noHoles ⊢
  by_cases inside : off + src.length ≤ maxfile * bsize
  · simp only [if_pos inside]
    apply (writei_spec settled.good held typed noHoles start' plain (by omega)
      (fun wrong => refused.mp wrong inside)).mono
    · rintro result after ⟨count, fresh, wrote⟩
      exact ⟨count, fresh, wrote, wrote.settled settled held,
        wrote.toFrame.refs_eq held, wrote.toFrame.locks_eq held⟩
    · exact fun reason short => ⟨inside, short⟩
  · simp only [if_neg inside]
    exact (writei_refused held plain (by omega) (by omega)
      (refused.mpr inside)).safe

/-! ## The list of bytes -/

/-- The bytes of a file. -/
def Store.contents (s : Store) (x : Nat) : List UInt8 :=
  (List.range (s.inode x).size.toNat).map (s.byte x)

/-- Bytes with others written over them from an offset on. -/
def overwrite (bytes : List UInt8) (off : Nat) (src : List UInt8) :
    List UInt8 :=
  bytes.take off ++ src ++ bytes.drop (off + src.length)

theorem Store.length_contents (s : Store) (x : Nat) :
    (s.contents x).length = (s.inode x).size.toNat := by
  unfold Store.contents
  rw [List.length_map, List.length_range]

theorem Store.range_eq (s : Store) (x off n : Nat) :
    s.range x off n = ((s.contents x).drop off).take n := by
  unfold Store.range Store.contents
  apply List.ext_getElem
  · simp
  · intro k _ _
    simp

theorem overwrite_of_spliced {byte : Nat → UInt8} {src : List UInt8}
    {size : Nat} (start : off ≤ size) :
    overwrite ((List.range size).map byte) off src =
      (List.range (max size (off + src.length))).map
        (spliced byte off src) := by
  unfold overwrite
  apply List.ext_getElem
  · simp only [List.length_append, List.length_take, List.length_drop,
      List.length_map, List.length_range]
    omega
  · intro k _ _
    rw [List.getElem_map, List.getElem_range]
    unfold spliced
    have front : (((List.range size).map byte).take off).length = off := by
      simpa using start
    by_cases before : k < off
    · rw [patch_outside (.inl before),
        List.getElem_append_left (by rw [List.length_append]; omega),
        List.getElem_append_left (by omega), List.getElem_take,
        List.getElem_map, List.getElem_range]
    · by_cases middle : k < off + src.length
      · rw [List.getElem_append_left (by rw [List.length_append]; omega),
          List.getElem_append_right (by omega)]
        unfold patch
        rw [if_pos ⟨by omega, middle⟩]
        simp only [front]
        exact (List.getD_eq_getElem _ _ _).symm
      · rw [patch_outside (.inr (by omega)),
          List.getElem_append_right (by rw [List.length_append]; omega),
          List.getElem_drop, List.getElem_map, List.getElem_range,
          List.length_append, front]
        congr 1
        omega

theorem Wrote.contents {src : List UInt8} {fresh : List Place}
    (wrote : Wrote sb x off src fresh state after)
    (start : off ≤ (state.dinode sb x).size.toNat)
    (inside : off + src.length ≤ maxfile * bsize)
    (noHoles : (state.store sb).NoHoles x) :
    (after.store sb).contents x =
      overwrite ((state.store sb).contents x) off src := by
  have fits : sizeAfter (state.dinode sb x) off src.length ≤
      maxfile * bsize := by
    have before : (state.dinode sb x).size.toNat ≤ maxfile * bsize :=
      noHoles.size_le
    unfold sizeAfter
    omega
  have size : ((after.store sb).inode x).size.toNat =
      sizeAfter (state.dinode sb x) off src.length := by
    rw [wrote.changes.fields, Store.inode_setInode_self]
    exact UInt32.ofNat_of_le fits
  have start' : off ≤ ((state.store sb).inode x).size.toNat := start
  unfold Store.contents
  rw [overwrite_of_spliced start', size]
  apply List.map_congr_left
  intro k member
  have below := List.mem_range.mp member
  rw [wrote.changes.byte x k _, if_pos rfl]
  rw [Nat.div_lt_iff_lt_mul (by decide)]
  omega

theorem take_drop_overwrite {bytes src : List UInt8}
    (start : off ≤ bytes.length) :
    ((overwrite bytes off src).drop off).take src.length = src := by
  have front : (bytes.take off).length = off := List.length_take_of_le start
  unfold overwrite
  rw [List.append_assoc, List.drop_append_of_le_length (by omega),
    List.drop_eq_nil_of_le (by omega), List.nil_append, List.take_left]

/-- What was written is read back. -/
theorem Wrote.read {src : List UInt8} {fresh : List Place}
    (wrote : Wrote sb x off src fresh state after) (held : Held state x ip)
    (typed : ip.dinode.allocated) (plain : ip.dinode.type ≠ tDev)
    (start : off ≤ ip.dinode.size.toNat)
    (inside : off + src.length ≤ maxfile * bsize)
    (second : src.length < 2 ^ 32) (noHoles : (state.store sb).NoHoles x) :
    wp (readi sb x off src.length)
      (fun bytes last => bytes = some src ∧ last = after)
      (fun _ => False) after := by
  have limit : maxfile * bsize < 2 ^ 32 := by decide
  have start' : off ≤ (state.dinode sb x).size.toNat := by
    rw [held.dinode]
    exact start
  have contents := wrote.contents start' inside noHoles
  have type : (after.dinode sb x).type = ip.dinode.type := by
    change ((after.store sb).inode x).type = _
    rw [wrote.changes.fields, Store.inode_setInode_self]
    change (state.dinode sb x).type = _
    rw [held.dinode]
  have size : (after.dinode sb x).size.toNat =
      ((after.store sb).contents x).length :=
    ((after.store sb).length_contents x).symm
  have long : off ≤ ((state.store sb).contents x).length := by
    rw [Store.length_contents]
    exact start'
  have reaches : off ≤ (after.dinode sb x).size.toNat := by
    rw [size, contents]
    unfold overwrite
    rw [List.length_append, List.length_append, List.length_take_of_le long]
    omega
  have held' : Held after x { ip with dinode := after.dinode sb x } :=
    wrote.toFrame.held held
  have allocated : (after.dinode sb x).allocated := by
    unfold Dinode.allocated at *
    rw [type]
    exact typed
  apply (readi_spec wrote.good held' allocated (by rw [type]; exact plain)
    wrote.noHoles.readable (by omega) second).imp
  rintro bytes last ⟨same, rfl⟩
  refine ⟨?_, same⟩
  rw [if_neg (by dsimp only; omega), Store.range_eq, contents,
    take_drop_overwrite long]

/-- Reading and writing a file without holes is reading and writing a list of
bytes. -/
theorem file_refines_bytes {src : List UInt8} (good : Good sb state)
    (held : Held state x ip)
    (file : ip.dinode.type = tFile ∨ ip.dinode.type = tDir)
    (noHoles : (state.store sb).NoHoles x) (first : off < 2 ^ 32)
    (second : src.length < 2 ^ 32) (third : n < 2 ^ 32) :
    wp (writei sb x src off)
      (fun result after =>
        (result = -1 ↔ Refused ip.dinode off src.length) ∧
        (result = -1 → after = state) ∧
        (result ≠ -1 → result = src.length ∧
          (after.store sb).contents x =
            overwrite ((state.store sb).contents x) off src ∧
          (∀ y, y ≠ x →
            (after.store sb).inode y = (state.store sb).inode y ∧
            ∀ offset, offset < maxfile * bsize →
              (after.store sb).byte y offset =
                (state.store sb).byte y offset) ∧
          wp (readi sb x off src.length)
            (fun bytes last => bytes = some src ∧ last = after)
            (fun _ => False) after))
      (fun reason => ¬ Refused ip.dinode off src.length ∧
        OutOfBlocks sb state
          ((state.store sb).lacks x (indices off src.length)).card reason)
      state ∧
    wp (readi sb x off n)
      (fun bytes after => after = state ∧
        (bytes = none ↔ off > ip.dinode.size.toNat ∨ 2 ^ 32 ≤ off + n) ∧
        ∀ found, bytes = some found →
          found = (((state.store sb).contents x).drop off).take n)
      (fun _ => False) state := by
  have typed : ip.dinode.allocated := by
    unfold Dinode.allocated
    rcases file with type | type <;> rw [type] <;> decide
  have plain : ip.dinode.type ≠ tDev := by
    rcases file with type | type <;> rw [type] <;> decide
  have inode : (state.store sb).inode x = ip.dinode := held.dinode
  constructor
  · by_cases refused : Refused ip.dinode off src.length
    · apply (writei_refused held plain first second refused).safe.imp
      rintro result after ⟨rfl, rfl⟩
      exact ⟨⟨fun _ => refused, fun _ => rfl⟩, fun _ => rfl,
        fun wrong => (wrong rfl).elim⟩
    · have accepted := refused
      unfold Refused at accepted
      have start : off ≤ ip.dinode.size.toNat := by omega
      have inside : off + src.length ≤ maxfile * bsize := by omega
      apply (writei_spec good held typed noHoles start plain second
        refused).mono
      · rintro result after ⟨rfl, fresh, wrote⟩
        have succeeds : (src.length : Int) ≠ -1 := by omega
        have contents := wrote.contents (by rw [held.dinode]; exact start)
          inside noHoles
        refine ⟨⟨fun wrong => (succeeds wrong).elim,
          fun wrong => (refused wrong).elim⟩,
          fun wrong => (succeeds wrong).elim, fun _ => ⟨rfl, contents, ?_, ?_⟩⟩
        · intro y different
          refine ⟨?_, ?_⟩
          · rw [wrote.changes.inode y different,
              Store.inode_setInode_of_ne different]
          · intro offset small
            rw [wrote.changes.byte y offset
              ((Nat.div_lt_iff_lt_mul (by decide)).mpr small),
              if_neg different]
            exact Store.byte_congr (Store.address_resize _ x _) rfl y offset
        · exact wrote.read held typed plain start inside second noHoles
      · exact fun reason short => ⟨refused, short⟩
  · apply (readi_spec good held typed plain noHoles.readable first
      third).imp
    rintro bytes after ⟨rfl, rfl⟩
    refine ⟨rfl, ?_, ?_⟩
    · split
      · rename_i refused
        exact ⟨fun _ => refused, fun _ => rfl⟩
      · rename_i accepted
        exact ⟨nofun, fun refused => (accepted refused).elim⟩
    · intro found read
      split at read
      · cases read
      · rw [← Option.some.inj read]
        exact Store.range_eq _ x off n

/-- A byte written to the root directory of an empty image is read back. -/
theorem file_refines_bytes_root :
    ∃ state ip, Held state rootino ip ∧
      wp (writei Mkfs.sb rootino [7] 0)
        (fun result after => result = 1 ∧
          wp (readi Mkfs.sb rootino 0 1)
            (fun bytes last => bytes = some [7] ∧ last = after)
            (fun _ => False) after)
        (fun reason => reason = .panic "balloc: out of blocks") state := by
  have few : ([] : List Mkfs.Input).length + 1 < Mkfs.ninodes := by decide
  obtain ⟨image, success⟩ := Mkfs.main_exits few ⟨nofun, nofun, by decide⟩
  have made := (Mkfs.main_spec few).ok success
  have sound := made.sound few (by decide)
  obtain ⟨_, state, _, moves⟩ := (ilock_spec sound.settled Mkfs.refs_booted
    (by rw [sound.unlocked]) sound.root.allocated).returns
  have isDir : (state.files Mkfs.sb).IsDir rootino := by
    rw [moves.files]
    exact sound.dirs rootino made.rootType
  obtain ⟨ip, held, _, _, dinode⟩ := moves.settled.held (x := rootino)
    (by rw [moves.locks, Function.update_self])
  refine ⟨state, ip, held, ?_⟩
  have refines := @file_refines_bytes Mkfs.sb state rootino 0 1 ip [7]
    moves.settled.good held (.inr (by rw [dinode]; exact isDir.type))
    (by rw [moves.settled.store]; exact isDir.noHoles) (by decide) (by decide)
    (by decide)
  apply refines.1.mono
  · rintro result after ⟨refused, _, written⟩
    have accepted : ¬ Refused ip.dinode 0 [(7 : UInt8)].length := by
      have limit : maxfile * bsize = 71680 := rfl
      unfold Refused
      rw [limit, List.length_singleton]
      omega
    obtain ⟨count, _, _, read⟩ :=
      written fun failed => accepted (refused.mp failed)
    exact ⟨count, read⟩
  · exact fun reason short => short.2.reason

end Xv6.Fs
