import Xv6.Shell.Accepts

/-!
# The words of a command

All strings of a command lie in the line that was parsed, and `nulterminate`
writes the NULs behind them into the same line.  Every pointer still leads to
the word that it was set for.
-/

namespace Xv6.Shell

open Lib

variable {text buffer : List UInt8} {fuel : Nat} {cmd : Cmd} {tree : Tree}

/-- The strings of an `execcmd`: `argv[i]` with `eargv[i]`, where `argv[i]` is
not null. -/
def Execcmd.slices (cmd : Execcmd) : List (Nat × Option Nat) :=
  (cmd.argv.zip cmd.eargv).filterMap fun field =>
    field.1.map fun q => (q, field.2)

/-- The strings of a command. -/
def Cmd.slices : Cmd → List (Nat × Option Nat)
  | .exec cmd => cmd.slices
  | .redir cmd file efile _ _ => (file, some efile) :: cmd.slices
  | .pipe left right => left.slices ++ right.slices
  | .list left right => left.slices ++ right.slices
  | .back cmd => cmd.slices

/-- The string is the word token at its pointer. -/
def Intact (text buffer : List UInt8) (slice : Nat × Option Nat) : Prop :=
  ∃ eq, slice.2 = some eq ∧ classify text slice.1 = ('a'.toUInt8, eq) ∧
    cstring buffer slice.1 = (text.drop slice.1).take (eq - slice.1)

theorem IsWord.intact {q eq : Nat} {word : Word} (nulFree : 0 ∉ text)
    (isWord : IsWord text q eq word)
    (string : Shell.cstring buffer q = word) :
    Intact text buffer (q, some eq) := by
  have behind := isWord.eq_add
  refine ⟨eq, rfl, ?_, ?_⟩
  · rw [behind]
    exact classify_spec nulFree isWord.split isWord.ends
  · rw [string, isWord.split, behind, Nat.add_sub_cancel_left, List.take_left]

theorem Execcmd.slices_of_spans {cmd : Execcmd} {spans : List (Nat × Nat)}
    {n : Nat} (argv : cmd.argv = spans.map (some ·.1) ++ List.replicate n none)
    (eargv : cmd.eargv = spans.map (some ·.2) ++ List.replicate n none) :
    cmd.slices = spans.map fun span => (span.1, some span.2) := by
  have same : (spans.map (some ·.1)).length =
      (spans.map (some ·.2)).length := by
    rw [List.length_map, List.length_map]
  unfold Execcmd.slices
  rw [argv, eargv, List.zip_append same, List.filterMap_append,
    List.zip_replicate', List.filterMap_replicate_of_none rfl,
    List.append_nil, List.zip_map', List.filterMap_map]
  exact congrFun List.filterMap_eq_map spans

/-- The words at the ends of the spans. -/
theorem intact_of_spans (nulFree : 0 ∉ text) {spans : List (Nat × Nat)}
    {words : List Word}
    (spanned : List.Forall₂
      (fun span word => IsWord text span.1 span.2 word) spans words)
    (strings : spans.map (fun span => cstring buffer span.1) = words) :
    ∀ span ∈ spans, Intact text buffer (span.1, some span.2) := by
  induction spanned with
  | nil => nofun
  | cons isWord _ ih =>
      obtain ⟨first, others⟩ := List.cons.inj strings
      intro span member
      rcases List.mem_cons.mp member with rfl | later
      · exact isWord.intact nulFree first
      · exact ih others span later

theorem untilNull_spans (spans : List (Nat × Nat)) (n : Nat) :
    untilNull (spans.map (some ·.1) ++ List.replicate n none) =
      spans.map Prod.fst := by
  induction spans with
  | nil =>
      cases n with
      | zero => rfl
      | succ n => rfl
  | cons span spans ih =>
      rw [List.map_cons, List.cons_append, untilNull, ih, List.map_cons]

theorem Reads.intact (nulFree : 0 ∉ text) (reads : Reads text cmd tree)
    (strings : cmd.tree buffer = tree) :
    ∀ slice ∈ cmd.slices, Intact text buffer slice := by
  induction reads with
  | exec args short =>
      obtain ⟨spans, argv, eargv, spanned⟩ := args
      intro slice member
      rw [Cmd.slices, Execcmd.slices_of_spans argv eargv] at member
      obtain ⟨span, listed, rfl⟩ := List.mem_map.mp member
      refine intact_of_spans nulFree spanned ?_ span listed
      injection strings with words
      rw [← words, argv, untilNull_spans, List.map_map]
      rfl
  | redir _ isWord ih =>
      intro slice member
      injection strings with inner file
      rcases List.mem_cons.mp member with rfl | later
      · exact isWord.intact nulFree file
      · exact ih inner slice later
  | pipe _ _ first second =>
      intro slice member
      injection strings with left right
      rcases List.mem_append.mp member with inLeft | inRight
      · exact first left slice inLeft
      · exact second right slice inRight
  | list _ _ first second =>
      intro slice member
      injection strings with left right
      rcases List.mem_append.mp member with inLeft | inRight
      · exact first left slice inLeft
      · exact second right slice inRight
  | back _ ih =>
      injection strings with inner
      exact ih inner

/-- Every string of a command that was accepted is the word token that it was
parsed from. -/
theorem parsecmd_words_intact (nulFree : 0 ∉ text)
    (enough : fuelFor text ≤ fuel)
    (accepted : parsecmd fuel text = .ok (cmd, buffer)) :
    ∀ slice ∈ cmd.slices, Intact text buffer slice := by
  rcases parsecmd_cases nulFree enough with
    ⟨_, _, _, same, strings, _, reads⟩ | ⟨_, failed⟩
  · rw [accepted] at same
    cases same
    exact reads.intact nulFree strings
  · rw [accepted] at failed
    cases failed

/-- In `a<b|c` the words end where the next token starts. -/
theorem parsecmd_words_intact_pipe :
    ∃ cmd buffer,
      parsecmd 24 (['a', '<', 'b', '|', 'c'].map Char.toUInt8) =
        .ok (cmd, buffer) ∧
      cmd.slices = [(2, some 3), (0, some 1), (4, some 5)] ∧
      Intact (['a', '<', 'b', '|', 'c'].map Char.toUInt8) buffer
        (2, some 3) := by
  refine ⟨_, _, rfl, rfl, ?_⟩
  refine parsecmd_words_intact (by decide) (?_ : _ ≤ 24) rfl _ ?_
  · decide
  · exact List.mem_cons_self

end Xv6.Shell
