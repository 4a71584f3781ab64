import Xv6.Grep.Matcher

/-!
# The loop of `grep`

The buffer keeps the bytes before `buf[m]`.  A read appends what has arrived,
the lines that are complete are matched and written, and the bytes behind the
last newline are moved to the front.  If there was no newline they are
dropped: a line that arrives in several reads loses what came without a
newline.
-/

namespace Xv6.Grep

def newline : UInt8 := '\n'.toUInt8

/-- `sizeof(buf)`. -/
def bufSize : Nat := 1024

/-- `strchr(p, '\n')`: the bytes before the first newline and those behind
it. -/
def strchr : List UInt8 → Option (List UInt8 × List UInt8)
  | [] => none
  | b :: p =>
      if b = newline then some ([], p)
      else if b = 0 then none
      else (strchr p).map fun found => (b :: found.1, found.2)

theorem strchr_length {p line rest : List UInt8}
    (found : strchr p = some (line, rest)) : rest.length < p.length := by
  induction p generalizing line with
  | nil => cases found
  | cons b p ih =>
      unfold strchr at found
      split at found
      · cases found
        exact Nat.lt_succ_self _
      · split at found
        · cases found
        · obtain ⟨⟨line', rest'⟩, deeper, same⟩ :=
            Option.map_eq_some_iff.mp found
          cases same
          exact Nat.lt_succ_of_lt (ih deeper)

/-- The inner loop: what is written, and `p` behind it. -/
def grepLines (pattern p : List UInt8) : List (List UInt8) × List UInt8 :=
  match _found : strchr p with
  | none => ([], p)
  | some (line, rest) =>
      let behind := grepLines pattern rest
      (if matchText pattern line then (line ++ [newline]) :: behind.1
       else behind.1, behind.2)
  termination_by p.length
  decreasing_by exact strchr_length _found

theorem grepLines_none {pattern p : List UInt8} (missing : strchr p = none) :
    grepLines pattern p = ([], p) := by
  rw [grepLines]
  split
  · rfl
  · rename_i found
    rw [missing] at found
    cases found

theorem grepLines_some {pattern p line rest : List UInt8}
    (found : strchr p = some (line, rest)) :
    grepLines pattern p =
      (if matchText pattern line then
          (line ++ [newline]) :: (grepLines pattern rest).1
        else (grepLines pattern rest).1, (grepLines pattern rest).2) := by
  rw [grepLines]
  split
  · rename_i missing
    rw [found] at missing
    cases missing
  · rename_i other
    rw [found] at other
    cases other
    rfl

/-- The bytes that stay in the buffer. -/
def keep (buf p : List UInt8) : List UInt8 :=
  if p.length = buf.length then [] else p

/-- The loop of `grep`, for the results of its reads.  `none` is a read that
returns more than it was asked for. -/
def grep (pattern : List UInt8) :
    List UInt8 → List (List UInt8) → Option (List (List UInt8))
  | _, [] => some []
  | kept, chunk :: chunks =>
      if chunk.length ≤ bufSize - kept.length - 1 then
        let buf := kept ++ chunk
        let found := grepLines pattern buf
        (grep pattern (keep buf found.2) chunks).map (found.1 ++ ·)
      else none

/-! ## Lines -/

/-- The lines that a newline ends, and the bytes behind the last newline. -/
def scan : List UInt8 → List (List UInt8) × List UInt8
  | [] => ([], [])
  | b :: text =>
      if b = newline then ([] :: (scan text).1, (scan text).2)
      else
        match (scan text).1 with
        | [] => ([], b :: (scan text).2)
        | line :: lines => ((b :: line) :: lines, (scan text).2)

/-- The lines that match, as they are written. -/
def matching (pattern : List UInt8) (lines : List (List UInt8)) :
    List (List UInt8) :=
  (lines.filter fun line => matchText pattern line).map (· ++ [newline])

theorem scan_cons_newline (text : List UInt8) :
    scan (newline :: text) = ([] :: (scan text).1, (scan text).2) :=
  if_pos rfl

theorem scan_cons {b : UInt8} (other : b ≠ newline) (text : List UInt8) :
    scan (b :: text) =
      match (scan text).1 with
      | [] => ([], b :: (scan text).2)
      | line :: lines => ((b :: line) :: lines, (scan text).2) :=
  if_neg other

theorem scan_of_not_mem {text : List UInt8} (none : newline ∉ text) :
    scan text = ([], text) := by
  induction text with
  | nil => rfl
  | cons b text ih =>
      obtain ⟨other, none⟩ := not_or.mp (mt List.mem_cons.mpr none)
      rw [scan_cons (Ne.symm other), ih none]

theorem scan_line {line : List UInt8} (none : newline ∉ line)
    (rest : List UInt8) :
    scan (line ++ newline :: rest) =
      (line :: (scan rest).1, (scan rest).2) := by
  induction line with
  | nil => exact scan_cons_newline rest
  | cons b line ih =>
      obtain ⟨other, none⟩ := not_or.mp (mt List.mem_cons.mpr none)
      rw [List.cons_append, scan_cons (Ne.symm other), ih none]

theorem scan_append (text more : List UInt8) :
    scan (text ++ more) =
      ((scan text).1 ++ (scan ((scan text).2 ++ more)).1,
        (scan ((scan text).2 ++ more)).2) := by
  induction text with
  | nil => rfl
  | cons b text ih =>
      by_cases same : b = newline
      · subst same
        rw [List.cons_append, scan_cons_newline, scan_cons_newline, ih]
        rfl
      · rw [List.cons_append, scan_cons same, scan_cons same, ih]
        cases (scan text).1 with
        | nil =>
            dsimp only
            rw [List.cons_append, scan_cons same]
            rfl
        | cons line lines => rfl

theorem not_mem_scan (text : List UInt8) : newline ∉ (scan text).2 := by
  induction text with
  | nil => exact List.not_mem_nil
  | cons b text ih =>
      by_cases same : b = newline
      · subst same
        rw [scan_cons_newline]
        exact ih
      · rw [scan_cons same]
        split
        · exact mt List.mem_cons.mp (not_or.mpr ⟨Ne.symm same, ih⟩)
        · exact ih

theorem scan_fst_eq_nil_iff {text : List UInt8} :
    (scan text).1 = [] ↔ newline ∉ text := by
  constructor
  · intro empty some
    obtain ⟨line, rest, rfl, none⟩ := List.eq_append_cons_of_mem some
    rw [scan_line none] at empty
    cases empty
  · intro none
    rw [scan_of_not_mem none]

/-! ## One read -/

theorem strchr_eq_none {p : List UInt8} (none : newline ∉ p) :
    strchr p = .none := by
  induction p with
  | nil => rfl
  | cons b p ih =>
      obtain ⟨other, none⟩ := not_or.mp (mt List.mem_cons.mpr none)
      unfold strchr
      rw [if_neg (Ne.symm other), ih none]
      split <;> rfl

theorem strchr_line {line : List UInt8} (none : newline ∉ line)
    (nul : 0 ∉ line) (rest : List UInt8) :
    strchr (line ++ newline :: rest) = some (line, rest) := by
  induction line with
  | nil => exact if_pos rfl
  | cons b line ih =>
      obtain ⟨other, none⟩ := not_or.mp (mt List.mem_cons.mpr none)
      obtain ⟨byte, nul⟩ := not_or.mp (mt List.mem_cons.mpr nul)
      rw [List.cons_append]
      unfold strchr
      rw [if_neg (Ne.symm other), if_neg (Ne.symm byte), ih none nul]
      rfl

theorem matching_cons (pattern line : List UInt8) (lines : List (List UInt8)) :
    matching pattern (line :: lines) =
      if matchText pattern line then
        (line ++ [newline]) :: matching pattern lines
      else matching pattern lines := by
  unfold matching
  rw [List.filter_cons]
  split <;> rfl

theorem matching_append (pattern : List UInt8)
    (lines more : List (List UInt8)) :
    matching pattern (lines ++ more) =
      matching pattern lines ++ matching pattern more := by
  unfold matching
  rw [List.filter_append, List.map_append]

/-- The inner loop finds the lines of the buffer. -/
theorem grepLines_eq (pattern : List UInt8) {p : List UInt8} (nul : 0 ∉ p) :
    grepLines pattern p = (matching pattern (scan p).1, (scan p).2) := by
  induction size : p.length using Nat.strong_induction_on generalizing p with
  | h size ih =>
      subst size
      by_cases some : newline ∈ p
      · obtain ⟨line, rest, rfl, none⟩ := List.eq_append_cons_of_mem some
        obtain ⟨nul, nul'⟩ := not_or.mp (mt List.mem_append.mpr nul)
        have short : rest.length < (line ++ newline :: rest).length :=
          strchr_length (strchr_line none nul rest)
        rw [grepLines_some (strchr_line none nul rest), scan_line none,
          matching_cons, ih _ short ?_ rfl]
        exact fun inside => nul' (List.mem_cons_of_mem _ inside)
      · rw [scan_of_not_mem some, grepLines_none (strchr_eq_none some)]
        rfl

theorem scan_suffix (text : List UInt8) : (scan text).2 <:+ text := by
  induction text with
  | nil => exact List.suffix_refl []
  | cons b text ih =>
      by_cases same : b = newline
      · subst same
        rw [scan_cons_newline]
        exact ih.trans (List.suffix_cons newline text)
      · rw [scan_cons same]
        split
        case h_1 empty =>
            rw [scan_of_not_mem (scan_fst_eq_nil_iff.mp empty)]
        case h_2 => exact ih.trans (List.suffix_cons b text)

theorem length_scan_lt {text : List UInt8} (some : newline ∈ text) :
    (scan text).2.length < text.length := by
  obtain ⟨line, rest, rfl, none⟩ := List.eq_append_cons_of_mem some
  have shorter := (scan_suffix rest).length_le
  rw [scan_line none, List.length_append, List.length_cons]
  dsimp only
  omega

/-- What stays in the buffer: the bytes behind the last newline, and nothing
if there is none. -/
def carried (kept chunk : List UInt8) : List UInt8 :=
  if newline ∈ chunk then (scan (kept ++ chunk)).2 else []

theorem keep_eq_carried {kept : List UInt8} (none : newline ∉ kept)
    (chunk : List UInt8) :
    keep (kept ++ chunk) (scan (kept ++ chunk)).2 = carried kept chunk := by
  unfold keep carried
  by_cases some : newline ∈ chunk
  · have shorter := length_scan_lt (List.mem_append_right kept some)
    rw [if_pos some, if_neg (by omega)]
  · have missing : newline ∉ kept ++ chunk :=
      mt List.mem_append.mp (not_or.mpr ⟨none, some⟩)
    rw [if_neg some, if_pos (by rw [scan_of_not_mem missing])]

theorem not_mem_carried (kept chunk : List UInt8) :
    newline ∉ carried kept chunk := by
  unfold carried
  split
  · exact not_mem_scan _
  · exact List.not_mem_nil

theorem carried_of_not_nul {kept chunk : List UInt8} (nul : 0 ∉ kept)
    (nul' : 0 ∉ chunk) : 0 ∉ carried kept chunk := by
  unfold carried
  split
  · intro inside
    rcases List.mem_append.mp ((scan_suffix _).subset inside) with old | new
    · exact nul old
    · exact nul' new
  · exact List.not_mem_nil

/-! ## All reads -/

/-- The chunks are what the reads of a file may return: some bytes, and not
more than there is room for. -/
def Reads : List UInt8 → List (List UInt8) → Prop
  | _, [] => True
  | kept, chunk :: chunks =>
      chunk ≠ [] ∧ chunk.length ≤ bufSize - kept.length - 1 ∧
        Reads (carried kept chunk) chunks

/-- A read behind which a newline is still to come has a newline itself. -/
def Steady : List (List UInt8) → Prop
  | [] => True
  | chunk :: chunks =>
      (newline ∈ chunks.flatten → newline ∈ chunk) ∧ Steady chunks

/-- What `grep` writes. -/
def written (pattern : List UInt8) :
    List UInt8 → List (List UInt8) → List (List UInt8)
  | _, [] => []
  | kept, chunk :: chunks =>
      matching pattern (scan (kept ++ chunk)).1 ++
        written pattern (carried kept chunk) chunks

theorem grep_eq_written (pattern : List UInt8) {kept : List UInt8}
    {chunks : List (List UInt8)} (none : newline ∉ kept) (nul : 0 ∉ kept)
    (nuls : ∀ chunk ∈ chunks, 0 ∉ chunk) (reads : Reads kept chunks) :
    grep pattern kept chunks = some (written pattern kept chunks) := by
  induction chunks generalizing kept with
  | nil => rfl
  | cons chunk chunks ih =>
      obtain ⟨_, room, reads⟩ := reads
      obtain ⟨nul', nuls⟩ := List.forall_mem_cons.mp nuls
      have bytes : 0 ∉ kept ++ chunk :=
        mt List.mem_append.mp (not_or.mpr ⟨nul, nul'⟩)
      unfold grep
      rw [if_pos room]
      dsimp only
      rw [grepLines_eq pattern bytes]
      dsimp only
      rw [keep_eq_carried none, ih (not_mem_carried kept chunk)
        (carried_of_not_nul nul nul') nuls reads]
      rfl

/-- Steady reads lose nothing. -/
theorem written_of_steady (pattern : List UInt8) {kept : List UInt8}
    {chunks : List (List UInt8)} (none : newline ∉ kept)
    (steady : Steady chunks) :
    written pattern kept chunks =
      matching pattern (scan (kept ++ chunks.flatten)).1 := by
  induction chunks generalizing kept with
  | nil =>
      rw [List.flatten_nil, List.append_nil, scan_of_not_mem none]
      rfl
  | cons chunk chunks ih =>
      obtain ⟨later, steady⟩ := steady
      rw [written, ih (not_mem_carried kept chunk) steady, ← matching_append,
        List.flatten_cons, ← List.append_assoc,
        scan_append (kept ++ chunk) chunks.flatten]
      by_cases some : newline ∈ chunk
      · rw [carried, if_pos some]
      · have missing : newline ∉ kept ++ chunk :=
          mt List.mem_append.mp (not_or.mpr ⟨none, some⟩)
        have silent := mt later some
        rw [carried, if_neg some, List.nil_append, scan_of_not_mem missing,
          scan_of_not_mem silent, scan_of_not_mem
            (mt List.mem_append.mp (not_or.mpr ⟨missing, silent⟩))]

theorem matchText_nil (text : List UInt8) : matchText [] text = true := by
  have anchored : ([] : List UInt8).head? ≠ some caret := nofun
  unfold matchText
  rw [if_neg anchored, matchAnywhere_iff]
  exact ⟨[], text, rfl, matchhere_nil text⟩

theorem matching_nil_cons (line : List UInt8) (lines : List (List UInt8)) :
    matching [] (line :: lines) = (line ++ [newline]) :: matching [] lines := by
  rw [matching_cons, if_pos (matchText_nil line)]

/-- With the empty pattern every line that was found is written, and a line
that lost a part is shorter. -/
theorem length_head_written_le {kept : List UInt8} {chunks : List (List UInt8)}
    (none : newline ∉ kept) {first : List UInt8} {more : List (List UInt8)}
    (wrote : written [] kept chunks = first :: more) :
    ∃ line rest, kept ++ chunks.flatten = line ++ newline :: rest ∧
      newline ∉ line ∧ first.length ≤ line.length + 1 := by
  induction chunks generalizing kept with
  | nil => cases wrote
  | cons chunk chunks ih =>
      rw [written] at wrote
      rw [List.flatten_cons, ← List.append_assoc]
      by_cases some : newline ∈ chunk
      · obtain ⟨line, rest, cut, before⟩ :=
          List.eq_append_cons_of_mem (List.mem_append_right kept some)
        rw [cut, scan_line before, matching_nil_cons] at wrote
        obtain ⟨rfl, _⟩ := List.cons.inj wrote
        refine ⟨line, rest ++ chunks.flatten, ?_, before, ?_⟩
        · rw [cut, List.append_assoc, List.cons_append]
        · rw [List.length_append, List.length_singleton]
      · have missing : newline ∉ kept ++ chunk :=
          mt List.mem_append.mp (not_or.mpr ⟨none, some⟩)
        rw [scan_of_not_mem missing, carried, if_neg some] at wrote
        obtain ⟨line, rest, cut, before, short⟩ := ih List.not_mem_nil wrote
        rw [List.nil_append] at cut
        refine ⟨kept ++ chunk ++ line, rest, ?_, ?_, ?_⟩
        · rw [cut, List.append_assoc _ line]
        · exact mt List.mem_append.mp (not_or.mpr ⟨missing, before⟩)
        · rw [List.length_append]
          omega

theorem steady_of_not_mem {chunks : List (List UInt8)}
    (none : newline ∉ chunks.flatten) : Steady chunks := by
  induction chunks with
  | nil => trivial
  | cons chunk chunks ih =>
      rw [List.flatten_cons, List.mem_append, not_or] at none
      exact ⟨fun some => (none.2 some).elim, ih none.2⟩

/-- Reads that are not steady lose a part of a line. -/
theorem steady_of_written {kept : List UInt8} {chunks : List (List UInt8)}
    (none : newline ∉ kept) (reads : Reads kept chunks)
    (same : written [] kept chunks =
      matching [] (scan (kept ++ chunks.flatten)).1) : Steady chunks := by
  induction chunks generalizing kept with
  | nil => trivial
  | cons chunk chunks ih =>
      obtain ⟨nonempty, _, reads⟩ := reads
      rw [written, List.flatten_cons, ← List.append_assoc,
        scan_append (kept ++ chunk), matching_append] at same
      have rest := List.append_cancel_left same
      by_cases some : newline ∈ chunk
      · refine ⟨fun _ => some, ih (not_mem_carried kept chunk) reads ?_⟩
        rw [rest, carried, if_pos some]
      · have missing : newline ∉ kept ++ chunk :=
          mt List.mem_append.mp (not_or.mpr ⟨none, some⟩)
        rw [carried, if_neg some, scan_of_not_mem missing] at rest
        have silent : newline ∉ chunks.flatten := by
          intro later
          obtain ⟨line, text, cut, before⟩ := List.eq_append_cons_of_mem later
          have whole : newline ∉ kept ++ chunk ++ line :=
            mt List.mem_append.mp (not_or.mpr ⟨missing, before⟩)
          rw [cut, ← List.append_assoc, scan_line whole,
            matching_nil_cons] at rest
          obtain ⟨line', text', cut', before', short⟩ :=
            length_head_written_le List.not_mem_nil rest
          have lines := congrArg scan (cut'.symm.trans cut)
          rw [scan_line before', scan_line before] at lines
          have equal := (List.cons.inj (congrArg Prod.fst lines)).1
          have long := List.length_pos_of_ne_nil nonempty
          rw [equal, List.length_append, List.length_append,
            List.length_append, List.length_singleton] at short
          omega
        exact steady_of_not_mem
          (mt List.mem_append.mp (not_or.mpr ⟨some, silent⟩))

/-- `grep` writes exactly the lines that match, for every pattern, if and
only if its reads are steady. -/
theorem grep_correct_iff_steady (chunks : List (List UInt8))
    (nuls : ∀ chunk ∈ chunks, 0 ∉ chunk) (reads : Reads [] chunks) :
    (∀ pattern, grep pattern [] chunks =
        some (matching pattern (scan chunks.flatten).1)) ↔
      Steady chunks := by
  have wrote : ∀ pattern, grep pattern [] chunks =
      some (written pattern [] chunks) := fun pattern =>
    grep_eq_written pattern List.not_mem_nil List.not_mem_nil nuls reads
  constructor
  · intro correct
    have all := correct []
    rw [wrote, Option.some.injEq] at all
    exact steady_of_written List.not_mem_nil reads all
  · intro steady pattern
    rw [wrote, written_of_steady pattern List.not_mem_nil steady,
      List.nil_append]

/-- Of two lines in two reads the second one is looked for. -/
theorem grep_correct_iff_steady_lines :
    Steady [[97, newline, 98], [99, newline]] ∧
      grep [98] [] [[97, newline, 98], [99, newline]] =
        some (matching [98] [[97], [98, 99]]) := by
  have steady : Steady [[97, newline, 98], [99, newline]] :=
    ⟨by decide, by decide, trivial⟩
  have correct :=
    (grep_correct_iff_steady [[97, newline, 98], [99, newline]]
      (by decide) ⟨by decide, by decide, by decide, by decide, trivial⟩).mpr
      steady
  exact ⟨steady, correct [98]⟩

/-- The line `ab` arrives in two reads, and `b` is written. -/
theorem grep_drops_part :
    Reads [] [[97], [98, newline]] ∧
      grep [] [] [[97], [98, newline]] = some [[98, newline]] ∧
      matching [] (scan [97, 98, newline]).1 = [[97, 98, newline]] := by
  have reads : Reads [] [[97], [98, newline]] :=
    ⟨by decide, by decide, by decide, by decide, trivial⟩
  refine ⟨reads, ?_, ?_⟩
  · rw [grep_eq_written [] List.not_mem_nil List.not_mem_nil (by decide) reads]
    change some (matching [] [[98]] ++ []) = _
    rw [matching_nil_cons]
    rfl
  · change matching [] [[97, 98]] = _
    rw [matching_nil_cons]
    rfl

end Xv6.Grep
