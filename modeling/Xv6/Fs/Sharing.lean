import Xv6.Fs.Filewrite
import Xv6.Lib.Run

/-!
# Processes that share an open file

Every process runs the loop of `filewrite` with its own bytes.  A step is one
of the calls in the body of the loop, and the steps of the processes may come
in any order; `ilock` waits while another process holds the lock.  The chunks
of the processes lie one behind the other in the file.
-/

namespace Xv6.Fs

open Lib

/-! ## The machine -/

/-- Where a process is in the loop of `filewrite`. -/
inductive Point where
  | ready
  | begun
  | locked
  | wrote (r : Int)
  | moved (r : Int)
  | unlocked (r : Int)
  | finished

/-- A process in `filewrite`. -/
structure Writer where
  i : Nat
  point : Point

/-- The bytes that the loop writes at `i`. -/
def chunkAt (src : List UInt8) (i : Nat) : List UInt8 :=
  (src.drop i).take (min (src.length - i) maxWrite)

/-- The next call of a process. -/
def Writer.next (sb : Superblock) (f : Fin nfile) (src : List UInt8)
    (writer : Writer) : Call Writer := do
  let kernel ← get
  let file := kernel.ftable f
  match writer.point with
  | .ready =>
      if writer.i < src.length then do
        fs beginOp
        pure { writer with point := .begun }
      else pure { writer with point := .finished }
  | .begun => do
      fs (ilock sb file.ip)
      pure { writer with point := .locked }
  | .locked => do
      let r ← fs (writei sb file.ip (chunkAt src writer.i) file.off)
      pure { writer with point := .wrote r }
  | .wrote r => do
      (if r > 0 then
        setFile f fun file => { file with off := uintAdd file.off r.toNat }
       else pure ())
      pure { writer with point := .moved r }
  | .moved r => do
      fs (iunlock file.ip)
      pure { writer with point := .unlocked r }
  | .unlocked r => do
      fs endOp
      if r < 0 then pure { writer with point := .finished }
      else if r ≠ min (src.length - writer.i) maxWrite then
        throw (.panic "short filewrite")
      else pure ⟨writer.i + r.toNat, .ready⟩
  | .finished => pure writer

/-- The kernel and the processes. -/
structure Shared (ι : Type) where
  kernel : Kernel
  writers : ι → Writer

section Machine

variable {ι : Type} [DecidableEq ι]

/-- The state after a step of `w`. -/
def Shared.stepped (state : Shared ι) (w : ι) (kernel : Kernel)
    (writer : Writer) : Shared ι :=
  ⟨kernel, Function.update state.writers w writer⟩

/-- A process makes its next call. -/
def sharing (sb : Superblock) (f : Fin nfile) (sources : ι → List UInt8) :
    System (Shared ι) ι where
  step state w after := ∃ writer kernel,
    ((state.writers w).next sb f (sources w)).run state.kernel =
      .ok (writer, kernel) ∧
    after = state.stepped w kernel writer

/-- All processes have entered `filewrite`. -/
def Shared.start (kernel : Kernel) : Shared ι := ⟨kernel, fun _ => ⟨0, .ready⟩⟩

end Machine

namespace Writer

/-- The process holds the lock of the inode. -/
def inside (writer : Writer) : Bool :=
  match writer.point with
  | .locked | .wrote _ | .moved _ => true
  | _ => false

/-- What the process has written without moving the offset. -/
def unmoved (writer : Writer) : Nat :=
  match writer.point with
  | .wrote r => r.toNat
  | _ => 0

/-- How many of its bytes the process has written. -/
def reached (writer : Writer) : Nat :=
  match writer.point with
  | .wrote r | .moved r | .unlocked r => writer.i + r.toNat
  | _ => writer.i

end Writer

/-! ## The chunks in the file -/

/-- The chunk with the given number. -/
def chunkOf (src : List UInt8) (k : Nat) : List UInt8 :=
  chunkAt src (k * maxWrite)

section Invariant

variable {ι : Type} [DecidableEq ι] {sb : Superblock} {f : Fin nfile}
  {sources : ι → List UInt8} {base : Kernel} {parts : List (ι × Nat)}
  {holder : Option ι} {state : Shared ι} {w : ι}

/-- Chunks one behind the other. -/
def joined (sources : ι → List UInt8) (parts : List (ι × Nat)) : List UInt8 :=
  parts.flatMap fun part => chunkOf (sources part.1) part.2

/-- The bytes that are in the file and not below its offset. -/
def Shared.pending (state : Shared ι) : Option ι → Nat
  | none => 0
  | some w => (state.writers w).unmoved

/-- The chunks of a process are in the file in their order. -/
structure InOrder (sources : ι → List UInt8) (parts : List (ι × Nat))
    (w : ι) (reached : Nat) : Prop where
  order : ∃ k, (parts.filter (·.1 = w)).map Prod.snd = List.range k ∧
    reached = min (k * maxWrite) (sources w).length

/-- What holds while the processes write, when `parts` is what was written so
far and `holder` has the lock. -/
structure Sequenced (sb : Superblock) (f : Fin nfile)
    (sources : ι → List UInt8) (base : Kernel) (parts : List (ι × Nat))
    (holder : Option ι) (state : Shared ι) : Prop where
  settled : Settled sb state.kernel.fs
  used : state.kernel.fs.refs (base.ftable f).ip ≠ 0
  ip : (state.kernel.ftable f).ip = (base.ftable f).ip
  file : ((state.kernel.files sb).inode (base.ftable f).ip).type = tFile
  noHoles : (state.kernel.files sb).NoHoles (base.ftable f).ip
  contents : (state.kernel.files sb).contents (base.ftable f).ip =
    overwrite ((base.files sb).contents (base.ftable f).ip)
      (base.ftable f).off (joined sources parts)
  locks : state.kernel.fs.locks =
    Function.update base.fs.locks (base.ftable f).ip holder.isSome
  holds : ∀ w, (state.writers w).inside = true ↔ holder = some w
  offset : (state.kernel.ftable f).off + state.pending holder =
    (base.ftable f).off + (joined sources parts).length
  progress : ∀ w, InOrder sources parts w (state.writers w).reached

theorem Shared.stepped_self {kernel : Kernel} {writer : Writer} :
    (state.stepped w kernel writer).writers w = writer := by
  unfold Shared.stepped
  dsimp only
  rw [Function.update_self]

theorem Shared.stepped_of_ne {kernel : Kernel} {writer : Writer} {v : ι}
    (different : v ≠ w) :
    (state.stepped w kernel writer).writers v = state.writers v := by
  unfold Shared.stepped
  dsimp only
  rw [Function.update_of_ne different]

theorem Shared.kernel_stepped {kernel : Kernel} {writer : Writer} :
    (state.stepped w kernel writer).kernel = kernel :=
  rfl

/-- What others have written does not depend on a process outside. -/
theorem Shared.pending_stepped {kernel : Kernel} {writer : Writer}
    (other : holder ≠ some w) :
    (state.stepped w kernel writer).pending holder = state.pending holder := by
  cases holder with
  | none => rfl
  | some v =>
      unfold Shared.pending
      dsimp only
      rw [stepped_of_ne fun same => other (congrArg some same)]

theorem Shared.pending_self {kernel : Kernel} {writer : Writer} :
    (state.stepped w kernel writer).pending (some w) = writer.unmoved := by
  unfold Shared.pending
  dsimp only
  rw [stepped_self]

omit [DecidableEq ι] in
theorem Regular.unlocked (regular : Regular sb base f) :
    base.fs.locks = Function.update base.fs.locks (base.ftable f).ip
      (none : Option ι).isSome := by
  rw [Option.isSome_none, ← regular.free, Function.update_eq_self]

theorem Sequenced.start (regular : Regular sb base f) :
    Sequenced sb f sources base [] none (.start base) where
  settled := regular.settled
  used := regular.used
  ip := rfl
  file := regular.file
  noHoles := regular.noHoles
  contents := (overwrite_nil _ _).symm
  locks := regular.unlocked
  holds := fun _ => ⟨nofun, nofun⟩
  offset := rfl
  progress := fun _ => ⟨0, rfl, (Nat.zero_min _).symm⟩

/-- A step that neither writes nor moves the end of what was written. -/
theorem Sequenced.keep
    (sequenced : Sequenced sb f sources base parts holder state)
    {kernel : Kernel} {writer : Writer} (holder' : Option ι)
    (settled : Settled sb kernel.fs)
    (disk : kernel.fs.disk = state.kernel.fs.disk)
    (refs : kernel.fs.refs = state.kernel.fs.refs)
    (locks : kernel.fs.locks =
      Function.update base.fs.locks (base.ftable f).ip holder'.isSome)
    (ip : (kernel.ftable f).ip = (state.kernel.ftable f).ip)
    (own : writer.inside = true ↔ holder' = some w)
    (others : ∀ v, v ≠ w → (holder = some v ↔ holder' = some v))
    (offset : (kernel.ftable f).off +
        (state.stepped w kernel writer).pending holder' =
      (state.kernel.ftable f).off + state.pending holder)
    (reached : writer.reached = (state.writers w).reached) :
    Sequenced sb f sources base parts holder'
      (state.stepped w kernel writer) := by
  have files : kernel.files sb = state.kernel.files sb := by
    unfold Kernel.files State.files
    rw [disk]
  constructor
  case settled => exact settled
  case used =>
      rw [Shared.kernel_stepped, refs]
      exact sequenced.used
  case ip => rw [Shared.kernel_stepped, ip, sequenced.ip]
  case file =>
      rw [Shared.kernel_stepped, files]
      exact sequenced.file
  case noHoles =>
      rw [Shared.kernel_stepped, files]
      exact sequenced.noHoles
  case contents => rw [Shared.kernel_stepped, files, sequenced.contents]
  case locks => exact locks
  case holds =>
      intro v
      by_cases same : v = w
      · subst same
        rw [Shared.stepped_self]
        exact own
      · rw [Shared.stepped_of_ne same, sequenced.holds]
        exact others v same
  case offset => exact offset.trans sequenced.offset
  case progress =>
      intro v
      have progress := sequenced.progress v
      by_cases same : v = w
      · subst same
        rw [Shared.stepped_self, reached]
        exact progress
      · rw [Shared.stepped_of_ne same]
        exact progress

theorem Sequenced.other
    (sequenced : Sequenced sb f sources base parts holder state)
    (outside : (state.writers w).inside = false) : holder ≠ some w := by
  rw [Ne, ← sequenced.holds w, outside]
  decide

theorem Sequenced.reaches
    (sequenced : Sequenced sb f sources base parts holder state)
    (regular : Regular sb base f) :
    (base.ftable f).off + (joined sources parts).length ≤
      ((state.kernel.files sb).inode (base.ftable f).ip).size.toNat := by
  have start := regular.start
  rw [← Store.length_contents] at start
  rw [← Store.length_contents, sequenced.contents]
  unfold overwrite
  rw [List.length_append, List.length_append, List.length_take_of_le start]
  omega

/-- A step of a process outside the lock that only touches the log. -/
theorem Sequenced.outside
    (sequenced : Sequenced sb f sources base parts holder state)
    (writer : Writer) (journal : Journal)
    (before : (state.writers w).inside = false) (own : writer.inside = false)
    (reached : writer.reached = (state.writers w).reached) :
    Sequenced sb f sources base parts holder
      (state.stepped w
        (state.kernel.withFs { state.kernel.fs with journal := journal })
        writer) := by
  have other := sequenced.other before
  refine sequenced.keep holder (sequenced.settled.rejournal journal) rfl rfl
    sequenced.locks rfl ?_ (fun _ _ => Iff.rfl) ?_ reached
  · rw [own]
    exact ⟨nofun, fun wrong => (other wrong).elim⟩
  · rw [Shared.pending_stepped other]
    rfl

/-! ## The steps -/

theorem ilock_hangs {fs : State} {x : Nat} (locked : fs.locks x = true) :
    wp (ilock sb x) (fun _ _ => False) (fun reason => reason = .hang) fs := by
  obtain ⟨ip, cached, locked⟩ := State.cached_of_locks locked
  unfold ilock
  apply wp_bind.mpr
  apply wp_get.mpr
  rw [cached, Option.isSome_some, if_pos rfl]
  apply wp_bind.mpr
  unfold acquiresleep
  apply wp_bind.mpr
  apply fetch_spec cached
  rw [locked, if_pos rfl]
  exact wp_throw.mpr rfl

variable (writer : Writer)

/-- `ilock` of a process that gets the lock. -/
theorem Sequenced.lock
    (sequenced : Sequenced sb f sources base parts holder state)
    (own : writer.inside = true) (flushed : writer.unmoved = 0)
    (reached : writer.reached = (state.writers w).reached) :
    wp (fs (ilock sb (state.kernel.ftable f).ip))
      (fun _ kernel => Sequenced sb f sources base parts (some w)
        (state.stepped w kernel writer))
      (fun _ => True) state.kernel := by
  apply wp_fs.mpr
  rw [sequenced.ip]
  cases holder with
  | some v =>
      have locked : state.kernel.fs.locks (base.ftable f).ip = true := by
        rw [sequenced.locks, Function.update_self]
        rfl
      exact (ilock_hangs locked).mono (fun _ _ => False.elim) fun _ _ => trivial
  | none =>
      have free : state.kernel.fs.locks (base.ftable f).ip = false := by
        rw [sequenced.locks, Function.update_self]
        rfl
      have allocated : ((state.kernel.files sb).inode
          (base.ftable f).ip).allocated := by
        unfold Dinode.allocated
        rw [sequenced.file]
        decide
      apply (ilock_spec sequenced.settled sequenced.used free
        allocated).safe.imp
      intro _ after moves
      refine sequenced.keep (some w) moves.settled moves.disk moves.refs ?_ rfl
        ⟨fun _ => rfl, fun _ => own⟩ ?_ ?_ reached
      · change after.locks = _
        rw [moves.locks, sequenced.locks, Function.update_idem]
        rfl
      · intro v different
        exact ⟨nofun, fun same => (different (Option.some.inj same).symm).elim⟩
      · rw [Shared.pending_self, flushed]
        rfl

/-- `iunlock`. -/
theorem Sequenced.unlock (regular : Regular sb base f)
    (sequenced : Sequenced sb f sources base parts (some w) state)
    (own : writer.inside = false) (flushed : (state.writers w).unmoved = 0)
    (reached : writer.reached = (state.writers w).reached) :
    wp (fs (iunlock (state.kernel.ftable f).ip))
      (fun _ kernel => Sequenced sb f sources base parts none
        (state.stepped w kernel writer))
      (fun _ => True) state.kernel := by
  apply wp_fs.mpr
  rw [sequenced.ip]
  apply (iunlock_spec sequenced.settled sequenced.locks regular.free).safe.imp
  intro _ after moves
  refine sequenced.keep none moves.settled moves.disk moves.refs ?_ rfl ?_ ?_ ?_
    reached
  · change after.locks = _
    rw [moves.locks]
    exact regular.unlocked
  · rw [own]
    exact ⟨nofun, nofun⟩
  · intro v different
    exact ⟨fun same => (different (Option.some.inj same).symm).elim, nofun⟩
  · change _ = _ + (state.writers w).unmoved
    rw [flushed]
    rfl

/-- `f->off += r`. -/
theorem Sequenced.move (regular : Regular sb base f)
    (sequenced : Sequenced sb f sources base parts (some w) state) {r : Int}
    (written : (state.writers w).unmoved = r.toNat)
    (own : writer.inside = true) (flushed : writer.unmoved = 0)
    (reached : writer.reached = (state.writers w).reached) :
    wp (if r > 0 then
        setFile f fun file => { file with off := uintAdd file.off r.toNat }
       else pure () : Call Unit)
      (fun _ kernel => Sequenced sb f sources base parts (some w)
        (state.stepped w kernel writer))
      (fun _ => True) state.kernel := by
  have total := sequenced.offset
  change _ + (state.writers w).unmoved = _ at total
  have limit : maxfile * bsize < 2 ^ 32 := by decide
  have reaches := sequenced.reaches regular
  have size := sequenced.noHoles.size_le
  have keep : ∀ ftable : Fin nfile → File,
      ftable f = { state.kernel.ftable f with
        off := (state.kernel.ftable f).off + r.toNat } →
      Sequenced sb f sources base parts (some w)
        (state.stepped w { state.kernel with ftable := ftable } writer) := by
    intro ftable moved
    refine sequenced.keep (some w) sequenced.settled rfl rfl sequenced.locks ?_
      ⟨fun _ => rfl, fun _ => own⟩ (fun _ _ => Iff.rfl) ?_ reached
    · dsimp only
      rw [moved]
    · rw [Shared.pending_self, flushed]
      dsimp only
      rw [moved]
      change _ = _ + (state.writers w).unmoved
      rw [written, Nat.add_zero]
  split
  case isTrue positive =>
      apply setFile_spec
      apply keep
      have sum : uintAdd (state.kernel.ftable f).off r.toNat =
          (state.kernel.ftable f).off + r.toNat := by
        unfold uintAdd
        omega
      rw [Function.update_self, sum]
  case isFalse nothing =>
      apply wp_pure.mpr
      apply keep state.kernel.ftable
      have zero : r.toNat = 0 := by omega
      rw [zero, Nat.add_zero]

theorem length_chunkAt (src : List UInt8) (i : Nat) :
    (chunkAt src i).length = min (src.length - i) maxWrite := by
  unfold chunkAt
  rw [List.length_take, List.length_drop]
  omega

/-- The next chunk of a process comes behind the others. -/
theorem InOrder.append {i : Nat} (order : InOrder sources parts w i) :
    ∃ part, joined sources part = chunkAt (sources w) i ∧
      InOrder sources (parts ++ part) w (i + (chunkAt (sources w) i).length) ∧
      ∀ v, v ≠ w → ∀ n, InOrder sources parts v n →
        InOrder sources (parts ++ part) v n := by
  obtain ⟨k, numbers, reached⟩ := order.order
  by_cases past : (sources w).length ≤ i
  · have empty : chunkAt (sources w) i = [] := by
      apply List.eq_nil_of_length_eq_zero
      rw [length_chunkAt]
      omega
    rw [empty]
    refine ⟨[], rfl, ?_, ?_⟩
    · rw [List.append_nil]
      exact order
    · intro v _ n others
      rw [List.append_nil]
      exact others
  · have number : i = k * maxWrite := by omega
    refine ⟨[(w, k)], ?_, ⟨k + 1, ?_, ?_⟩, ?_⟩
    · unfold joined
      rw [List.flatMap_singleton, number]
      rfl
    · rw [List.filter_append, List.map_append, numbers, List.range_succ,
        List.filter_singleton, decide_eq_true rfl]
      rfl
    · rw [length_chunkAt, number, Nat.succ_mul]
      omega
    · intro v different n ⟨k', numbers', reached'⟩
      refine ⟨k', ?_, reached'⟩
      rw [List.filter_append, List.filter_singleton,
        decide_eq_false (Ne.symm different), cond_false, List.append_nil]
      exact numbers'

/-- `writei`. -/
theorem Sequenced.write (regular : Regular sb base f)
    (sequenced : Sequenced sb f sources base parts (some w) state)
    (short : (sources w).length < 2 ^ 31)
    (point : (state.writers w).point = .locked) :
    wp (fs (writei sb (state.kernel.ftable f).ip
        (chunkAt (sources w) (state.writers w).i) (state.kernel.ftable f).off))
      (fun r kernel => ∃ parts, Sequenced sb f sources base parts (some w)
        (state.stepped w kernel { state.writers w with point := .wrote r }))
      (fun _ => True) state.kernel := by
  have locked : state.kernel.fs.locks (base.ftable f).ip = true := by
    rw [sequenced.locks, Function.update_self]
    rfl
  have none : (state.writers w).unmoved = 0 := by
    unfold Writer.unmoved
    rw [point]
  have offset : (state.kernel.ftable f).off =
      (base.ftable f).off + (joined sources parts).length := by
    have total := sequenced.offset
    change _ + (state.writers w).unmoved = _ at total
    omega
  have start := sequenced.reaches regular
  rw [← offset] at start
  have size := length_chunkAt (sources w) (state.writers w).i
  apply wp_fs.mpr
  rw [sequenced.ip]
  apply (writei_locked _ sequenced.settled locked (.inl sequenced.file)
    sequenced.noHoles start (by omega)).mono
  · intro r after outcome
    split at outcome
    case isTrue fits =>
        obtain ⟨rfl, fresh, wrote, _⟩ := outcome
        obtain ⟨ip, held, _⟩ := sequenced.settled.held locked
        have stored := wrote.stored sequenced.settled held sequenced.noHoles
          start fits
        have reached : (state.writers w).reached = (state.writers w).i := by
          unfold Writer.reached
          rw [point]
        have order := sequenced.progress w
        rw [reached] at order
        obtain ⟨part, bytes, order, others⟩ := order.append
        have all : joined sources (parts ++ part) =
            joined sources parts ++
              chunkAt (sources w) (state.writers w).i := by
          unfold joined at *
          rw [List.flatMap_append, bytes]
        refine ⟨parts ++ part, ?_⟩
        constructor
        case settled => exact stored.settled
        case used =>
            change after.refs _ ≠ 0
            rw [stored.refs]
            exact sequenced.used
        case ip => exact sequenced.ip
        case file => exact stored.type.trans sequenced.file
        case noHoles => exact stored.noHoles
        case contents =>
            have below := regular.start
            rw [← Store.length_contents] at below
            change (after.files sb).contents _ = _
            rw [all, ← overwrite_append below, ← offset, ← sequenced.contents]
            exact stored.contents
        case locks => exact stored.locks.trans sequenced.locks
        case holds =>
            intro v
            by_cases same : v = w
            · subst same
              rw [Shared.stepped_self]
              exact ⟨fun _ => rfl, fun _ => rfl⟩
            · rw [Shared.stepped_of_ne same]
              exact sequenced.holds v
        case offset =>
            rw [Shared.pending_self, all, List.length_append, ← Nat.add_assoc,
              ← offset]
            rfl
        case progress =>
            intro v
            by_cases same : v = w
            · subst same
              rw [Shared.stepped_self]
              exact order
            · rw [Shared.stepped_of_ne same]
              exact others v same _ (sequenced.progress v)
    case isFalse =>
        obtain ⟨rfl, rfl⟩ := outcome
        refine ⟨parts, sequenced.keep (some w) sequenced.settled rfl rfl
          sequenced.locks rfl ⟨fun _ => rfl, fun _ => rfl⟩
          (fun _ _ => Iff.rfl) ?_ ?_⟩
        · rw [Shared.pending_self]
          change _ = _ + (state.writers w).unmoved
          rw [none]
          rfl
        · unfold Writer.reached
          rw [point]
          rfl
  · exact fun _ _ => trivial

/-- Whatever a process does next, what was written lies in sequence. -/
theorem Sequenced.next (regular : Regular sb base f)
    (sequenced : Sequenced sb f sources base parts holder state)
    (short : (sources w).length < 2 ^ 31) :
    wp ((state.writers w).next sb f (sources w))
      (fun writer kernel => ∃ parts holder,
        Sequenced sb f sources base parts holder
          (state.stepped w kernel writer))
      (fun _ => True) state.kernel := by
  have holds := (sequenced.holds w).mp
  unfold Writer.inside at holds
  unfold Writer.next
  apply wp_bind.mpr
  apply wp_get.mpr
  cases point : (state.writers w).point with
  | ready =>
      have reached : (state.writers w).reached = (state.writers w).i := by
        unfold Writer.reached
        rw [point]
      have outside : (state.writers w).inside = false := by
        unfold Writer.inside
        rw [point]
      dsimp only
      split
      · apply wp_bind.mpr
        apply wp_fs.mpr
        apply beginOp_spec
        exact wp_pure.mpr ⟨parts, holder, sequenced.outside
          { state.writers w with point := .begun } _ outside rfl reached.symm⟩
      · exact wp_pure.mpr ⟨parts, holder, sequenced.outside
          { state.writers w with point := .finished } state.kernel.fs.journal
          outside rfl reached.symm⟩
  | begun =>
      apply wp_bind.mpr
      apply (sequenced.lock { state.writers w with point := .locked } rfl rfl
        ?_).imp
      · intro _ kernel locked
        exact wp_pure.mpr ⟨parts, some w, locked⟩
      · unfold Writer.reached
        rw [point]
  | locked =>
      rw [point] at holds
      cases holds rfl
      apply wp_bind.mpr
      apply (sequenced.write regular short point).imp
      rintro r kernel ⟨parts, written⟩
      exact wp_pure.mpr ⟨parts, some w, written⟩
  | wrote r =>
      rw [point] at holds
      cases holds rfl
      apply wp_bind.mpr
      apply (sequenced.move { state.writers w with point := .moved r } regular
        ?_ rfl rfl ?_).imp
      · intro _ kernel moved
        exact wp_pure.mpr ⟨parts, some w, moved⟩
      · unfold Writer.unmoved
        rw [point]
      · unfold Writer.reached
        rw [point]
  | moved r =>
      rw [point] at holds
      cases holds rfl
      apply wp_bind.mpr
      apply (sequenced.unlock { state.writers w with point := .unlocked r }
        regular rfl ?_ ?_).imp
      · intro _ kernel unlocked
        exact wp_pure.mpr ⟨parts, none, unlocked⟩
      · unfold Writer.unmoved
        rw [point]
      · unfold Writer.reached
        rw [point]
  | unlocked r =>
      have reached : (state.writers w).reached =
          (state.writers w).i + r.toNat := by
        unfold Writer.reached
        rw [point]
      have outside : (state.writers w).inside = false := by
        unfold Writer.inside
        rw [point]
      apply wp_bind.mpr
      apply wp_fs.mpr
      apply endOp_spec
      split
      · refine wp_pure.mpr ⟨parts, holder, sequenced.outside
          { state.writers w with point := .finished } _ outside rfl ?_⟩
        rw [reached]
        change (state.writers w).i = _
        omega
      · split
        · exact wp_throw.mpr trivial
        · exact wp_pure.mpr ⟨parts, holder, sequenced.outside
            ⟨(state.writers w).i + r.toNat, .ready⟩ _ outside rfl
            reached.symm⟩
  | finished =>
      have outside : (state.writers w).inside = false := by
        unfold Writer.inside
        rw [point]
      exact wp_pure.mpr ⟨parts, holder, sequenced.outside (state.writers w)
        state.kernel.fs.journal outside outside rfl⟩

theorem Sequenced.run {history : History (Shared ι) ι} {finish : Shared ι}
    (regular : Regular sb base f) (short : ∀ w, (sources w).length < 2 ^ 31)
    (run : Run (sharing sb f sources) (.start base) history finish) :
    ∃ parts holder, Sequenced sb f sources base parts holder finish := by
  apply run.invariant
  · exact ⟨[], none, .start regular⟩
  · rintro before w after ⟨writer, kernel, success, rfl⟩
      ⟨parts, holder, sequenced⟩
    exact (sequenced.next regular (short w)).ok success

end Invariant

/-! ## Writing in chunks -/

variable {sb : Superblock} {kernel : Kernel} {f : Fin nfile}

/-- If the call did not run out of blocks, one chunk would not have. -/
theorem Written.single {after : Kernel} {src : List UInt8}
    (regular : Regular sb kernel f) (written : Written sb f src kernel after)
    (short : src.length < 2 ^ 31)
    (fits : (kernel.ftable f).off + src.length ≤ maxfile * bsize) :
    wp (filewriteChunk sb f src)
      (fun count single => count = src.length ∧ Written sb f src kernel single)
      (fun _ => False) kernel := by
  apply (filewriteChunk_spec src regular short).mono
  · rintro count single ⟨_, _, _, outcome⟩
    rw [if_pos fits] at outcome
    exact outcome
  · rintro reason ⟨_, lacking⟩
    have blocks := written.blocks 0
    have less := lacking.short
    have none : indices ((kernel.ftable f).off + src.length) 0 = [] := rfl
    rw [none, Store.lacks_nil, Finset.card_empty, Nat.add_zero] at blocks
    omega

end Xv6.Fs
