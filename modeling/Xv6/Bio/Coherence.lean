import Xv6.Bio.References

/-!
# The cache is transparent

The history of a run says what was stored last in each block.  A valid buffer
holds that, and the disk holds it unless the block has a dirty buffer.  No
block has two buffers, and a buffer that a process refers to stays with its
block, because `refcnt` counts the references.
-/

namespace Xv6.Bio

open Lib

variable {Process Data : Type} [DecidableEq Process]

/-- What was stored last in every block, by `bwrite` or by a change that was
given to `log_write`. -/
def contents (disk : Nat → Data) :
    History (Machine Process Data) (Action Process Data) → Nat → Data
  | [] => disk
  | (m, action) :: past =>
      match action with
      | .bwrite _ i data | .logWrite _ i data =>
          Function.update (contents disk past) (m.buf i).blockno data
      | _ => contents disk past

/-! ## Contents -/

/-- The buffers and the disk hold what was stored. -/
structure Coherent (stored : Nat → Data) (m : Machine Process Data) :
    Prop where
  live : ∀ i, (m.buf i).dev = rootdev ∨
    (m.buf i).refcnt = 0 ∧ (m.buf i).valid = false
  unique : ∀ i j, (m.buf i).dev = rootdev → (m.buf j).dev = rootdev →
    (m.buf i).blockno = (m.buf j).blockno → i = j
  valid : ∀ i, (m.buf i).dirty = true → (m.buf i).valid = true
  data : ∀ i, (m.buf i).valid = true →
    (m.buf i).data = stored (m.buf i).blockno
  disk : ∀ blockno, m.disk blockno = stored blockno ∨
    ∃ i, (m.buf i).dirty = true ∧ (m.buf i).blockno = blockno
  held : ∀ p, ∀ i ∈ m.held p, (m.buf i).valid = true
  asked : ∀ p i blockno, m.control p = .acquiresleep i blockno ∨
    m.control p = .bread i blockno →
    (m.buf i).dev = rootdev ∧ (m.buf i).blockno = blockno

namespace Coherent

variable {m after : Machine Process Data} {stored stored' : Nat → Data}
  {p : Process} {i : Fin nbuf} {buf : Buf Process Data} {control : Control}
  {held : List (Fin nbuf)}

omit [DecidableEq Process] in
theorem dev_of_valid (coherent : Coherent stored m)
    (valid : (m.buf i).valid = true) : (m.buf i).dev = rootdev := by
  rcases coherent.live i with dev | ⟨_, invalid⟩
  · exact dev
  · rw [valid] at invalid
    cases invalid

omit [DecidableEq Process] in
/-- Two buffers of different blocks. -/
theorem block_ne (coherent : Coherent stored m) {j : Fin nbuf}
    (dev : (m.buf i).dev = rootdev) (dev' : (m.buf j).dev = rootdev)
    (other : j ≠ i) : (m.buf j).blockno ≠ (m.buf i).blockno :=
  fun same => other (coherent.unique j i dev' dev same)

private theorem unique_change (coherent : Coherent stored m)
    (changes : Changes m p i buf control held after)
    (dev : buf.dev = (m.buf i).dev)
    (blockno : buf.blockno = (m.buf i).blockno) (j k : Fin nbuf)
    (first : (after.buf j).dev = rootdev)
    (second : (after.buf k).dev = rootdev)
    (same : (after.buf j).blockno = (after.buf k).blockno) : j = k := by
  have devs : ∀ l, (after.buf l).dev = (m.buf l).dev := by
    intro l
    by_cases self : l = i
    · rw [self, changes.buf_self, dev]
    · rw [changes.buf_of_ne self]
  have blocks : ∀ l, (after.buf l).blockno = (m.buf l).blockno := by
    intro l
    by_cases self : l = i
    · rw [self, changes.buf_self, blockno]
    · rw [changes.buf_of_ne self]
  rw [devs] at first second
  rw [blocks, blocks] at same
  exact coherent.unique j k first second same

private theorem held_change (coherent : Coherent stored m)
    (changes : Changes m p i buf control held after)
    (keeps : (m.buf i).valid = true → buf.valid = true)
    (own : ∀ j ∈ held, (m.buf j).valid = true ∨ j = i ∧ buf.valid = true)
    (q : Process) (j : Fin nbuf) (member : j ∈ after.held q) :
    (after.buf j).valid = true := by
  have valid : (m.buf j).valid = true ∨ j = i ∧ buf.valid = true := by
    by_cases self : q = p
    · rw [self, changes.held_self] at member
      exact own j member
    · rw [changes.held_of_ne self] at member
      exact .inl (coherent.held q j member)
  by_cases same : j = i
  · rw [same, changes.buf_self]
    rcases valid with old | ⟨_, new⟩
    · rw [same] at old
      exact keeps old
    · exact new
  · rw [changes.buf_of_ne same]
    exact valid.resolve_right fun new => same new.1

private theorem asked_change (coherent : Coherent stored m)
    (changes : Changes m p i buf control held after)
    (dev : buf.dev = (m.buf i).dev)
    (blockno : buf.blockno = (m.buf i).blockno)
    (own : ∀ j b, control = .acquiresleep j b ∨ control = .bread j b →
      (m.buf j).dev = rootdev ∧ (m.buf j).blockno = b)
    (q : Process) (j : Fin nbuf) (b : Nat)
    (place : after.control q = .acquiresleep j b ∨
      after.control q = .bread j b) :
    (after.buf j).dev = rootdev ∧ (after.buf j).blockno = b := by
  have before : (m.buf j).dev = rootdev ∧ (m.buf j).blockno = b := by
    by_cases self : q = p
    · rw [self, changes.control_self] at place
      exact own j b place
    · rw [changes.control_of_ne self] at place
      exact coherent.asked q j b place
  by_cases same : j = i
  · rw [same, changes.buf_self, dev, blockno, ← same]
    exact before
  · rw [changes.buf_of_ne same]
    exact before

/-- A step that leaves the contents and the flags as they are. -/
theorem keep (coherent : Coherent stored m)
    (changes : Changes m p i buf control held after)
    (disk : after.disk = m.disk)
    (dev : buf.dev = (m.buf i).dev)
    (blockno : buf.blockno = (m.buf i).blockno)
    (valid : buf.valid = (m.buf i).valid)
    (dirty : buf.dirty = (m.buf i).dirty)
    (data : buf.data = (m.buf i).data)
    (live : (m.buf i).refcnt = 0 → (m.buf i).dev = rootdev ∨ buf.refcnt = 0)
    (own : ∀ j ∈ held, (m.buf j).valid = true)
    (asked : ∀ j b, control = .acquiresleep j b ∨ control = .bread j b →
      (m.buf j).dev = rootdev ∧ (m.buf j).blockno = b) :
    Coherent stored after := by
  have fields : ∀ j, (after.buf j).blockno = (m.buf j).blockno ∧
      (after.buf j).valid = (m.buf j).valid ∧
      (after.buf j).dirty = (m.buf j).dirty ∧
      (after.buf j).data = (m.buf j).data := by
    intro j
    by_cases same : j = i
    · rw [same, changes.buf_self]
      exact ⟨blockno, valid, dirty, data⟩
    · rw [changes.buf_of_ne same]
      exact ⟨rfl, rfl, rfl, rfl⟩
  refine ⟨?_, coherent.unique_change changes dev blockno, ?_, ?_, ?_,
    coherent.held_change changes ?_ ?_,
    coherent.asked_change changes dev blockno asked⟩
  · intro j
    by_cases same : j = i
    · rw [same, changes.buf_self, dev, valid]
      rcases coherent.live i with isRoot | ⟨zero, invalid⟩
      · exact .inl isRoot
      · rcases live zero with isRoot | stays
        · exact .inl isRoot
        · exact .inr ⟨stays, invalid⟩
    · rw [changes.buf_of_ne same]
      exact coherent.live j
  · intro j isDirty
    rw [(fields j).2.1]
    rw [(fields j).2.2.1] at isDirty
    exact coherent.valid j isDirty
  · intro j isValid
    rw [(fields j).2.2.2, (fields j).1]
    rw [(fields j).2.1] at isValid
    exact coherent.data j isValid
  · intro b
    rw [disk]
    rcases coherent.disk b with clean | ⟨j, isDirty, block⟩
    · exact .inl clean
    · refine .inr ⟨j, ?_, ?_⟩
      · rw [(fields j).2.2.1]
        exact isDirty
      · rw [(fields j).1]
        exact block
  · rw [valid]
    exact id
  · intro j member
    exact .inl (own j member)

/-- A buffer gets the contents that its block is to have. -/
theorem fill (coherent : Coherent stored m)
    (changes : Changes m p i buf control held after)
    (root : (m.buf i).dev = rootdev)
    (dev : buf.dev = (m.buf i).dev)
    (blockno : buf.blockno = (m.buf i).blockno)
    (valid : buf.valid = true)
    (data : buf.data = stored' (m.buf i).blockno)
    (elsewhere : ∀ b, b ≠ (m.buf i).blockno → stored' b = stored b)
    (disk : after.disk (m.buf i).blockno = stored' (m.buf i).blockno ∨
      buf.dirty = true)
    (away : ∀ b, b ≠ (m.buf i).blockno → after.disk b = m.disk b)
    (own : ∀ j ∈ held, (m.buf j).valid = true ∨ j = i ∧ buf.valid = true)
    (asked : ∀ j b, control = .acquiresleep j b ∨ control = .bread j b →
      (m.buf j).dev = rootdev ∧ (m.buf j).blockno = b) :
    Coherent stored' after := by
  refine ⟨?_, coherent.unique_change changes dev blockno, ?_, ?_, ?_,
    coherent.held_change changes (fun _ => valid) own,
    coherent.asked_change changes dev blockno asked⟩
  · intro j
    by_cases same : j = i
    · rw [same, changes.buf_self, dev]
      exact .inl root
    · rw [changes.buf_of_ne same]
      exact coherent.live j
  · intro j isDirty
    by_cases same : j = i
    · rw [same, changes.buf_self]
      exact valid
    · rw [changes.buf_of_ne same] at isDirty ⊢
      exact coherent.valid j isDirty
  · intro j isValid
    by_cases same : j = i
    · rw [same, changes.buf_self, blockno]
      exact data
    · rw [changes.buf_of_ne same] at isValid ⊢
      have isRoot := coherent.dev_of_valid isValid
      rw [elsewhere _ (coherent.block_ne root isRoot same)]
      exact coherent.data j isValid
  · intro b
    by_cases block : b = (m.buf i).blockno
    · rw [block]
      rcases disk with clean | isDirty
      · exact .inl clean
      · refine .inr ⟨i, ?_, ?_⟩
        · rw [changes.buf_self]
          exact isDirty
        · rw [changes.buf_self, blockno]
    · rw [away b block, elsewhere b block]
      rcases coherent.disk b with clean | ⟨j, isDirty, isBlock⟩
      · exact .inl clean
      · have other : j ≠ i := by
          intro same
          rw [same] at isBlock
          exact block isBlock.symm
        refine .inr ⟨j, ?_, ?_⟩
        · rw [changes.buf_of_ne other]
          exact isDirty
        · rw [changes.buf_of_ne other]
          exact isBlock

/-- A buffer that nobody refers to gets another block. -/
theorem recycle {blockno : Nat} (coherent : Coherent stored m)
    (changes : Changes m p i buf (.acquiresleep i blockno) (m.held p) after)
    (unreferenced : ∀ q, uses m q i = 0)
    (missing : ∀ j, (m.buf j).dev = rootdev → (m.buf j).blockno ≠ blockno)
    (clean : (m.buf i).dirty = false)
    (dev : buf.dev = rootdev) (block : buf.blockno = blockno)
    (invalid : buf.valid = false) (stays : buf.dirty = false)
    (disk : after.disk = m.disk) : Coherent stored after := by
  have away : ∀ q, i ∉ m.held q ∧ (m.control q).target ≠ some i :=
    fun q => uses_eq_zero.mp (unreferenced q)
  refine ⟨?_, ?_, ?_, ?_, ?_, ?_, ?_⟩
  · intro j
    by_cases same : j = i
    · rw [same, changes.buf_self]
      exact .inl dev
    · rw [changes.buf_of_ne same]
      exact coherent.live j
  · intro j k first second equal
    by_cases same : j = i
    · by_cases same' : k = i
      · rw [same, same']
      · rw [changes.buf_of_ne same'] at second equal
        rw [same, changes.buf_self, block] at equal
        exact absurd equal.symm (missing k second)
    · rw [changes.buf_of_ne same] at first equal
      by_cases same' : k = i
      · rw [same', changes.buf_self, block] at equal
        exact absurd equal (missing j first)
      · rw [changes.buf_of_ne same'] at second equal
        exact coherent.unique j k first second equal
  · intro j isDirty
    by_cases same : j = i
    · rw [same, changes.buf_self, stays] at isDirty
      cases isDirty
    · rw [changes.buf_of_ne same] at isDirty ⊢
      exact coherent.valid j isDirty
  · intro j isValid
    by_cases same : j = i
    · rw [same, changes.buf_self, invalid] at isValid
      cases isValid
    · rw [changes.buf_of_ne same] at isValid ⊢
      exact coherent.data j isValid
  · intro b
    rw [disk]
    rcases coherent.disk b with isClean | ⟨j, isDirty, isBlock⟩
    · exact .inl isClean
    · have other : j ≠ i := by
        intro same
        rw [same, clean] at isDirty
        cases isDirty
      refine .inr ⟨j, ?_, ?_⟩
      · rw [changes.buf_of_ne other]
        exact isDirty
      · rw [changes.buf_of_ne other]
        exact isBlock
  · intro q j member
    have before : j ∈ m.held q := by
      by_cases self : q = p
      · rw [self, changes.held_self] at member
        rw [self]
        exact member
      · rw [changes.held_of_ne self] at member
        exact member
    have other : j ≠ i := by
      intro same
      rw [same] at before
      exact (away q).1 before
    rw [changes.buf_of_ne other]
    exact coherent.held q j before
  · intro q j b place
    by_cases self : q = p
    · rw [self, changes.control_self] at place
      simp only [Control.acquiresleep.injEq, reduceCtorEq, or_false] at place
      obtain ⟨rfl, rfl⟩ := place
      rw [changes.buf_self]
      exact ⟨dev, block⟩
    · rw [changes.control_of_ne self] at place
      have other : j ≠ i := by
        intro same
        rw [same] at place
        apply (away q).2
        rcases place with place | place
        · rw [place]
          rfl
        · rw [place]
          rfl
      rw [changes.buf_of_ne other]
      exact coherent.asked q j b place

end Coherent

/-! ## Runs -/

section Runs

variable {m after start finish : Machine Process Data}
  {action : Action Process Data} {disk : Nat → Data}
  {history : History (Machine Process Data) (Action Process Data)}

omit [DecidableEq Process] in
/-- The disk holds what was stored in a block that has no valid buffer. -/
theorem Coherent.read {stored : Nat → Data} {i : Fin nbuf}
    (coherent : Coherent stored m) (dev : (m.buf i).dev = rootdev)
    (invalid : (m.buf i).valid = false) :
    m.disk (m.buf i).blockno = stored (m.buf i).blockno := by
  rcases coherent.disk (m.buf i).blockno with clean | ⟨j, isDirty, block⟩
  · exact clean
  · have valid := coherent.valid j isDirty
    have same : j = i :=
      coherent.unique j i (coherent.dev_of_valid valid) dev block
    rw [same, invalid] at valid
    cases valid

theorem Effect.coherent (effect : Effect m after action)
    (counted : Counted m)
    (coherent : Coherent (contents disk history) m) :
    Coherent (contents disk ((m, action) :: history)) after := by
  cases effect with
  | hit idle dev same changes disk =>
      refine coherent.keep changes disk rfl rfl rfl rfl rfl ?_ ?_ ?_
      · exact fun _ => .inl dev
      · exact coherent.held _
      · simp only [reduceCtorEq, or_false, Control.acquiresleep.injEq]
        rintro j b ⟨rfl, rfl⟩
        exact ⟨dev, same⟩
  | recycle idle missing unreferenced clean changes disk =>
      exact coherent.recycle changes (counted.unreferenced unreferenced)
        missing clean rfl rfl rfl rfl disk
  | acquiresleep place free changes disk =>
      refine coherent.keep changes disk rfl rfl rfl rfl rfl ?_ ?_ ?_
      · exact fun zero => .inr zero
      · exact coherent.held _
      · simp only [reduceCtorEq, false_or, Control.bread.injEq]
        rintro j b ⟨rfl, rfl⟩
        exact coherent.asked _ _ _ (.inl place)
  | cached place valid changes disk =>
      refine coherent.keep changes disk rfl rfl rfl rfl rfl ?_ ?_ ?_
      · exact fun zero => .inr zero
      · intro j member
        rcases List.mem_cons.mp member with rfl | old
        · exact valid
        · exact coherent.held _ j old
      · simp
  | read place invalid clean changes disk =>
      have root := (coherent.asked _ _ _ (.inr place)).1
      have stored := coherent.read root invalid
      refine coherent.fill changes root rfl rfl rfl stored ?_ ?_ ?_ ?_ ?_
      · exact fun _ _ => rfl
      · left
        rw [disk]
        exact stored
      · intro b _
        rw [disk]
      · intro j member
        rcases List.mem_cons.mp member with rfl | old
        · exact .inr ⟨rfl, rfl⟩
        · exact .inl (coherent.held _ j old)
      · simp
  | bwrite idle member changes disk =>
      have root := coherent.dev_of_valid (coherent.held _ _ member)
      refine coherent.fill changes root rfl rfl rfl ?_ ?_ ?_ ?_ ?_ ?_
      · simp [contents]
      · intro b other
        simp [contents, other]
      · left
        rw [disk]
        simp [contents]
      · intro b other
        rw [disk, Function.update_of_ne other]
      · intro j member
        exact .inl (coherent.held _ j member)
      · simp
  | logWrite idle member changes disk =>
      have valid := coherent.held _ _ member
      have root := coherent.dev_of_valid valid
      refine coherent.fill changes root rfl rfl valid ?_ ?_ ?_ ?_ ?_ ?_
      · simp [contents]
      · intro b other
        simp [contents, other]
      · exact .inr rfl
      · intro b _
        rw [disk]
      · intro j member
        exact .inl (coherent.held _ j member)
      · simp
  | brelse idle holder changes disk =>
      refine coherent.keep changes disk rfl rfl rfl rfl rfl ?_ ?_ ?_
      · exact fun zero => .inr zero
      · intro j member
        exact coherent.held _ j (List.mem_of_mem_erase member)
      · simp
  | unref place changes disk =>
      refine coherent.keep changes disk rfl rfl rfl rfl rfl ?_ ?_ ?_
      · intro zero
        right
        rw [zero]
      · exact coherent.held _
      · simp

/-- Everything that holds in every state of the cache. -/
structure Invariant (stored : Nat → Data) (m : Machine Process Data) :
    Prop where
  linked : Linked m.next m.prev
  counted : Counted m
  locked : Locked m
  coherent : Coherent stored m

omit [DecidableEq Process] in
theorem Machine.Booted.locked (booted : start.Booted) : Locked start := by
  refine ⟨?_, ?_, ?_⟩
  · intro p i
    simp [booted.unlocked i, booted.held p, booted.idle p]
  · intro p
    simp [booted.held p]
  · intro p i blockno place
    simp [booted.idle p] at place

omit [DecidableEq Process] in
theorem Machine.Booted.coherent (booted : start.Booted) :
    Coherent start.disk start := by
  refine ⟨?_, ?_, ?_, ?_, ?_, ?_, ?_⟩
  · intro i
    exact .inr ⟨booted.refcnt i, booted.valid i⟩
  · intro i j dev
    rw [booted.dev i] at dev
    cases dev
  · intro i dirty
    simp [booted.dirty i] at dirty
  · intro i valid
    simp [booted.valid i] at valid
  · intro b
    exact .inl rfl
  · intro p i member
    simp [booted.held p] at member
  · intro p i blockno place
    simp [booted.idle p] at place

theorem Machine.Booted.invariant (booted : start.Booted) :
    Invariant start.disk start := by
  refine ⟨?_, ?_, booted.locked, booted.coherent⟩
  · have links := booted.links
    have next : start.next = binit.1 := congrArg Prod.fst links
    have prev : start.prev = binit.2 := congrArg Prod.snd links
    rw [next, prev]
    exact linked_binit
  · refine ⟨fun _ => 0, ?_, ?_⟩
    · intro i
      rw [booted.refcnt i]
      rfl
    · intro i p
      simp [uses, booted.held p, booted.idle p]

theorem Invariant.step
    (invariant : Invariant (contents disk history) m)
    (taken : (system Process Data).step m action after) :
    Invariant (contents disk ((m, action) :: history)) after := by
  obtain ⟨effect, linked⟩ :=
    step_effect invariant.linked invariant.coherent.valid taken
  exact ⟨linked,
    effect.counted (fun p i => invariant.locked.held_of_idle)
      invariant.counted,
    effect.locked invariant.locked,
    effect.coherent invariant.counted invariant.coherent⟩

theorem invariant_of_run (booted : start.Booted)
    (run : Run (system Process Data) start history finish) :
    Invariant (contents start.disk history) finish := by
  apply run.invariant_history booted.invariant
  intro past before action after _ taken invariant
  exact invariant.step taken

/-- The step takes a buffer away from its block. -/
def Recycles (m after : Machine Process Data) (i : Fin nbuf) : Prop :=
  (after.buf i).dev ≠ (m.buf i).dev ∨
    (after.buf i).blockno ≠ (m.buf i).blockno

private theorem not_recycles {p : Process} {i j : Fin nbuf}
    {buf : Buf Process Data} {control : Control} {held : List (Fin nbuf)}
    (changes : Changes m p i buf control held after)
    (dev : buf.dev = (m.buf i).dev)
    (blockno : buf.blockno = (m.buf i).blockno) : ¬ Recycles m after j := by
  unfold Recycles
  by_cases same : j = i
  · rw [same, changes.buf_self, dev, blockno]
    simp
  · rw [changes.buf_of_ne same]
    simp

theorem Effect.recycles {j : Fin nbuf} (effect : Effect m after action)
    (recycles : Recycles m after j) :
    (m.buf j).refcnt = 0 ∧ (m.buf j).dirty = false := by
  cases effect with
  | @recycle _ _ i idle missing unreferenced clean changes disk =>
      by_cases same : j = i
      · rw [same]
        exact ⟨unreferenced, clean⟩
      · rw [Recycles, changes.buf_of_ne same] at recycles
        simp at recycles
  | hit _ _ _ changes _
  | acquiresleep _ _ changes _
  | cached _ _ changes _
  | read _ _ _ changes _
  | bwrite _ _ changes _
  | logWrite _ _ changes _
  | brelse _ _ changes _
  | unref _ changes _ =>
      exact absurd recycles (not_recycles changes rfl rfl)

/-- `bread` returns what was stored last; the buffers are in one circular
list; a block has at most one buffer; no buffer is recycled that is dirty or
that somebody refers to. -/
theorem cache_transparent (booted : start.Booted)
    (run : Run (system Process Data) start history finish) :
    (∀ p after, (system Process Data).step finish (.bread p) after →
      ∃ i blockno, finish.control p = .bread i blockno ∧
        i ∈ after.held p ∧ (after.buf i).dev = rootdev ∧
        (after.buf i).blockno = blockno ∧
        (after.buf i).data = contents start.disk history blockno) ∧
    (∃ order, Ring finish.next finish.prev none order ∧
      ∀ i : Fin nbuf, some i ∈ order) ∧
    (∀ i j, 0 < (finish.buf i).refcnt ∨ (finish.buf i).valid = true →
      0 < (finish.buf j).refcnt ∨ (finish.buf j).valid = true →
      (finish.buf i).dev = (finish.buf j).dev →
      (finish.buf i).blockno = (finish.buf j).blockno → i = j) ∧
    (∀ action after i, (system Process Data).step finish action after →
      Recycles finish after i →
      (finish.buf i).dirty = false ∧ (finish.buf i).refcnt = 0 ∧
        ∀ q, i ∉ finish.held q ∧ (finish.control q).target ≠ some i) := by
  have invariant := invariant_of_run booted run
  have root : ∀ i, 0 < (finish.buf i).refcnt ∨ (finish.buf i).valid = true →
      (finish.buf i).dev = rootdev := by
    intro i used
    rcases invariant.coherent.live i with dev | ⟨zero, invalid⟩
    · exact dev
    · rw [zero, invalid] at used
      simp at used
  refine ⟨?_, invariant.linked, ?_, ?_⟩
  · intro p after taken
    have next := invariant.step taken
    obtain ⟨effect, _⟩ :=
      step_effect invariant.linked invariant.coherent.valid taken
    cases effect with
    | @cached _ i blockno place _ changes _
    | @read _ i blockno place _ _ changes _ =>
        obtain ⟨dev, block⟩ := invariant.coherent.asked p i blockno
          (.inr place)
        have member : i ∈ after.held p := by
          rw [changes.held_self]
          exact List.mem_cons_self
        have stored := next.coherent.data i (next.coherent.held p i member)
        refine ⟨i, blockno, place, member, ?_, ?_, ?_⟩
        · rw [changes.buf_self]
          exact dev
        · rw [changes.buf_self]
          exact block
        · rw [stored, changes.buf_self]
          change contents start.disk history (finish.buf i).blockno = _
          rw [block]
  · intro i j first second _ block
    exact invariant.coherent.unique i j (root i first) (root j second) block
  · intro action after i taken recycles
    obtain ⟨effect, _⟩ :=
      step_effect invariant.linked invariant.coherent.valid taken
    obtain ⟨zero, clean⟩ := effect.recycles recycles
    refine ⟨clean, zero, ?_⟩
    intro q
    exact uses_eq_zero.mp (invariant.counted.unreferenced zero q)

/-- No update is lost: what was stored last in a block is on the disk, or in
a buffer that no step takes away. -/
theorem latest_on_disk_or_cached (booted : start.Booted)
    (run : Run (system Process Data) start history finish) (blockno : Nat) :
    finish.disk blockno = contents start.disk history blockno ∨
      ∃ i, (finish.buf i).blockno = blockno ∧
        (finish.buf i).data = contents start.disk history blockno ∧
        ∀ action after, (system Process Data).step finish action after →
          ¬ Recycles finish after i := by
  have invariant := invariant_of_run booted run
  have coherent := invariant.coherent
  rcases coherent.disk blockno with onDisk | ⟨i, dirty, block⟩
  · exact .inl onDisk
  · refine .inr ⟨i, block, ?_, ?_⟩
    · rw [coherent.data i (coherent.valid i dirty), block]
    · intro action after taken recycles
      obtain ⟨effect, _⟩ := step_effect invariant.linked coherent.valid taken
      rw [(effect.recycles recycles).2] at dirty
      cases dirty

end Runs

/-- One process changes block 7 and gives it to `log_write`; another process
reads it. -/
theorem cache_transparent_two_processes :
    ∃ history finish, Run (system Bool Nat) (.boot Bool id 100)
        history finish ∧
      finish.control true = .bread 0 7 ∧
      contents id history 7 = 42 ∧
      ∀ after, (system Bool Nat).step finish (.bread true) after →
        (after.buf 0).data = 42 := by
  have passed : (replay Machine.next? [] (.boot Bool id 100)
      [.bget false 7, .acquiresleep false, .bread false, .logWrite false 0 42,
        .brelse false 0, .unref false, .bget true 7, .acquiresleep true]).any
      (fun result => decide (
        result.2.control true = .bread 0 7 ∧
        contents id result.1 7 = 42)) = true := by
    decide +kernel
  obtain ⟨history, finish, run, facts⟩ :=
    Run.of_replay Machine.step_of_next passed
  obtain ⟨place, stored⟩ := of_decide_eq_true facts
  have place : finish.control true = .bread 0 7 := place
  refine ⟨history, finish, run, place, stored, ?_⟩
  intro after taken
  obtain ⟨i, blockno, place', _, _, _, data⟩ :=
    (cache_transparent (Machine.boot_booted id 100) run).1 true after taken
  rw [place, Control.bread.injEq] at place'
  rw [place'.1, data, ← place'.2]
  exact stored

/-- A block that was given to `log_write` is in a buffer. -/
theorem latest_on_disk_or_cached_block :
    ∃ history finish i, Run (system Bool Nat) (.boot Bool id 100)
        history finish ∧ finish.disk 7 = 7 ∧ (finish.buf i).data = 42 := by
  have passed : (replay Machine.next? [] (.boot Bool id 100)
      [.bget false 7, .acquiresleep false, .bread false,
        .logWrite false 0 42]).any (fun result => decide (
        result.2.disk 7 = 7 ∧ contents id result.1 7 = 42)) = true := by
    decide +kernel
  obtain ⟨history, finish, run, facts⟩ :=
    Run.of_replay Machine.step_of_next passed
  obtain ⟨old, stored⟩ := of_decide_eq_true facts
  rcases latest_on_disk_or_cached (Machine.boot_booted id 100) run 7 with
    onDisk | ⟨i, _, data, _⟩
  · exact absurd (old.symm.trans (onDisk.trans stored)) (by decide)
  · exact ⟨history, finish, i, run, old, data.trans stored⟩

end Xv6.Bio
