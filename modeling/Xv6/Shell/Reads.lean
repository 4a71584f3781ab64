import Xv6.Shell.Tokens
import Mathlib.Data.List.Forall2
import Mathlib.Data.List.GetD

/-!
# What the pointers of a command mean

The commands of the parser point to the ends of their words in the line.
`nulterminate` writes a NUL behind every word and hits no word with it, so that
afterwards the pointers lead to strings.
-/

namespace Xv6.Shell

open Lib

/-- A redirection as the parser sees it. -/
structure Place where
  arrow : Arrow
  file : Nat
  efile : Nat

/-- The redirection around a command. -/
def Place.around (cmd : Cmd) (place : Place) : Cmd :=
  match place.arrow with
  | .less => .redir cmd place.file place.efile .read 0
  | .great => .redir cmd place.file place.efile .create 1
  | .append => .redir cmd place.file place.efile .create 1

structure Place.Reads (text : List UInt8) (place : Place) (redir : Redir) :
    Prop where
  arrow : place.arrow = redir.arrow
  file : IsWord text place.file place.efile redir.file

/-- The first fields of the arrays hold words, the others are null. -/
def Execcmd.Reads (text : List UInt8) (cmd : Execcmd) (words : List Word) :
    Prop :=
  ∃ spans : List (Nat × Nat),
    cmd.argv = spans.map (some ·.1) ++
      List.replicate (maxargs - words.length) none ∧
    cmd.eargv = spans.map (some ·.2) ++
      List.replicate (maxargs - words.length) none ∧
    List.Forall₂ (fun span word => IsWord text span.1 span.2 word) spans words

/-- The command stands for the tree. -/
inductive Reads (text : List UInt8) : Cmd → Tree → Prop where
  | exec {cmd : Execcmd} {words : List Word} :
      cmd.Reads text words → words.length < maxargs →
      Reads text (.exec cmd) (.exec words)
  | redir {cmd : Cmd} {tree : Tree} {file efile fd : Nat} {word : Word}
      {mode : Mode} :
      Reads text cmd tree → IsWord text file efile word →
      Reads text (.redir cmd file efile mode fd) (.redir tree word mode fd)
  | pipe {left right : Cmd} {first second : Tree} :
      Reads text left first → Reads text right second →
      Reads text (.pipe left right) (.pipe first second)
  | list {left right : Cmd} {first second : Tree} :
      Reads text left first → Reads text right second →
      Reads text (.list left right) (.list first second)
  | back {cmd : Cmd} {tree : Tree} :
      Reads text cmd tree → Reads text (.back cmd) (.back tree)

section Building

variable {text : List UInt8}

theorem Reads.wrap {cmd : Cmd} {tree : Tree} {places : List Place}
    {redirs : List Redir} (reads : Reads text cmd tree)
    (redirected : List.Forall₂ (Place.Reads text) places redirs) :
    Reads text (places.foldl Place.around cmd) (wrap redirs tree) := by
  induction redirected generalizing cmd tree with
  | nil => exact reads
  | @cons place redir _ _ one _ induction =>
      apply induction
      unfold Place.around Redir.around
      rw [one.arrow]
      cases redir.arrow <;> exact .redir reads one.file

theorem setExec_wrap {places : List Place} {cmd : Cmd}
    {change : Execcmd → Execcmd} :
    (places.foldl Place.around cmd).setExec change =
      places.foldl Place.around (cmd.setExec change) := by
  induction places generalizing cmd with
  | nil => rfl
  | cons place places induction =>
      rw [List.foldl_cons, List.foldl_cons, induction]
      unfold Place.around
      cases place.arrow <;> rfl

theorem Execcmd.Reads.empty :
    Execcmd.Reads text
      { argv := List.replicate maxargs none
        eargv := List.replicate maxargs none } [] :=
  ⟨[], rfl, rfl, .nil⟩

private theorem set_replicate {α : Type} (front : List α) (x y : α) {n : Nat}
    (room : 0 < n) :
    (front ++ List.replicate n y).set front.length x =
      front ++ [x] ++ List.replicate (n - 1) y := by
  obtain ⟨n, rfl⟩ := Nat.exists_eq_add_of_lt room
  rw [Nat.zero_add, List.replicate_succ, Nat.add_sub_cancel,
    List.set_append_right _ _ (Nat.le_refl _), Nat.sub_self, List.set_cons_zero,
    List.append_assoc, List.singleton_append]

/-- The next word goes into the next field. -/
theorem Execcmd.Reads.push {cmd : Execcmd} {words : List Word} {q eq : Nat}
    {word : Word} (reads : cmd.Reads text words)
    (room : words.length < maxargs) (isWord : IsWord text q eq word) :
    Execcmd.Reads text
      { argv := cmd.argv.set words.length (some q)
        eargv := cmd.eargv.set words.length (some eq) } (words ++ [word]) := by
  obtain ⟨spans, argv, eargv, spanned⟩ := reads
  have length := spanned.length_eq
  have left : 0 < maxargs - words.length := Nat.sub_pos_of_lt room
  have less : maxargs - (words ++ [word]).length =
      maxargs - words.length - 1 := by
    rw [List.length_append, List.length_singleton, Nat.sub_sub]
  refine ⟨spans ++ [(q, eq)], ?_, ?_, ?_⟩
  · have set := set_replicate (spans.map (some ·.1)) (some q) none left
    rw [List.length_map, length] at set
    rw [argv, set, less, List.map_append]
    rfl
  · have set := set_replicate (spans.map (some ·.2)) (some eq) none left
    rw [List.length_map, length] at set
    rw [eargv, set, less, List.map_append]
    rfl
  · exact List.rel_append spanned (.cons isWord .nil)

/-- The null pointer at the end is there already. -/
theorem Execcmd.Reads.finish {cmd : Execcmd} {words : List Word}
    (reads : cmd.Reads text words) (room : words.length < maxargs) :
    Execcmd.Reads text
      { argv := cmd.argv.set words.length none
        eargv := cmd.eargv.set words.length none } words := by
  obtain ⟨spans, argv, eargv, spanned⟩ := reads
  have length := spanned.length_eq
  have left : 0 < maxargs - words.length := Nat.sub_pos_of_lt room
  have same : [none] ++ List.replicate (maxargs - words.length - 1) none =
      List.replicate (maxargs - words.length) (none : Option Nat) := by
    rw [List.singleton_append, ← List.replicate_succ,
      Nat.sub_add_cancel left]
  refine ⟨spans, ?_, ?_, spanned⟩
  · have set := set_replicate (spans.map (some ·.1)) none none left
    rw [List.length_map, length, List.append_assoc, same] at set
    rw [argv, set]
  · have set := set_replicate (spans.map (some ·.2)) none none left
    rw [List.length_map, length, List.append_assoc, same] at set
    rw [eargv, set]

end Building

/-! ## `nulterminate` -/

/-- The line, where some bytes that belong to no word have become NUL. -/
structure Cut (text buffer : List UInt8) : Prop where
  length : buffer.length = text.length + 1
  kept : ∀ i, byteAt buffer i = byteAt text i ∨
    byteAt buffer i = 0 ∧ isWordByte (byteAt text i) = false

/-- No NUL disappears. -/
def Keeps (before after : List UInt8) : Prop :=
  ∀ i, byteAt before i = 0 → byteAt after i = 0

theorem Keeps.trans {first second third : List UInt8}
    (left : Keeps first second) (right : Keeps second third) :
    Keeps first third :=
  fun i zero => right i (left i zero)

section Nulterminate

variable {text buffer : List UInt8}

theorem byteAt_set {i eq : Nat} (inside : eq < buffer.length) :
    byteAt (buffer.set eq 0) i = if i = eq then 0 else byteAt buffer i := by
  unfold byteAt
  rw [List.getD_eq_getElem?_getD, List.getD_eq_getElem?_getD]
  split
  · rename_i same
    rw [same, List.getElem?_set_self inside]
    rfl
  · rename_i other
    rw [List.getElem?_set_ne (Ne.symm other)]

theorem keeps_set {eq : Nat} : Keeps buffer (buffer.set eq 0) := by
  intro i zero
  by_cases inside : eq < buffer.length
  · rw [byteAt_set inside, zero, ite_self]
  · rw [List.set_eq_of_length_le (Nat.le_of_not_lt inside), zero]

theorem Cut.start : Cut text (text ++ [0]) where
  length := List.length_append
  kept i := by
    left
    by_cases inside : i < text.length
    · unfold byteAt
      rw [List.getD_append _ _ _ _ inside]
    · have outside := Nat.le_of_not_lt inside
      rw [byteAt_of_drop_nil (List.drop_eq_nil_iff.mpr outside)]
      unfold byteAt
      rw [List.getD_append_right _ _ _ _ outside]
      cases i - text.length <;> rfl

theorem Cut.set {q eq : Nat} {word : Word} (cut : Cut text buffer)
    (isWord : IsWord text q eq word) :
    Cut text (buffer.set eq 0) ∧ byteAt (buffer.set eq 0) eq = 0 := by
  have inside : eq < buffer.length := by
    rw [cut.length]
    exact Nat.lt_succ_of_le isWord.inside
  refine ⟨⟨?_, ?_⟩, ?_⟩
  · rw [List.length_set, cut.length]
  · intro i
    rw [byteAt_set inside]
    split
    · rename_i same
      rw [same]
      cases rest : text.drop eq with
      | nil => exact .inl (byteAt_of_drop_nil rest).symm
      | cons c rest' =>
          right
          rw [byteAt_of_drop rest]
          refine ⟨rfl, isWord.ends.2.2 c ?_⟩
          rw [rest]
          rfl
    · exact cut.kept i
  · rw [byteAt_set inside, if_pos rfl]

/-- The string at a word that ends in a NUL. -/
theorem Cut.cstring {q : Nat} {word : Word} (cut : Cut text buffer)
    (nulFree : 0 ∉ text)
    (split : text.drop q = word ++ text.drop (q + word.length))
    (wordBytes : ∀ c ∈ word, isWordByte c)
    (ended : byteAt buffer (q + word.length) = 0) :
    cstring buffer q = word := by
  induction word generalizing q with
  | nil =>
      unfold Shell.cstring
      cases rest : buffer.drop q with
      | nil => rfl
      | cons d bytes =>
          have zero : d = 0 := (byteAt_of_drop rest).symm.trans ended
          rw [zero]
          rfl
  | cons c word induction =>
      have nonzero : c ≠ 0 := fun zero => nulFree (zero ▸ mem_of_drop split)
      have first : byteAt buffer q = c := by
        rcases cut.kept q with same | ⟨_, noWord⟩
        · exact same.trans (byteAt_of_drop split)
        · rw [byteAt_of_drop split, wordBytes c List.mem_cons_self] at noWord
          cases noWord
      have behind : text.drop (q + 1) =
          word ++ text.drop (q + 1 + word.length) := by
        rw [← List.drop_drop, split, List.cons_append, List.drop_one,
          List.tail_cons, List.length_cons, Nat.add_assoc, Nat.add_comm 1]
      have rest := induction behind
        (fun d member => wordBytes d (List.mem_cons_of_mem c member))
        (by
          rw [List.length_cons, ← Nat.add_assoc, Nat.add_right_comm] at ended
          exact ended)
      unfold Shell.cstring at rest ⊢
      cases start : buffer.drop q with
      | nil =>
          rw [byteAt_of_drop_nil start] at first
          exact absurd first.symm nonzero
      | cons d bytes =>
          have same : d = c := (byteAt_of_drop start).symm.trans first
          have next : buffer.drop (q + 1) = bytes := by
            rw [← List.drop_drop, start]
            rfl
          rw [next] at rest
          rw [same]
          simp [nonzero, rest]

theorem IsWord.eq_add {q eq : Nat} {word : Word}
    (isWord : IsWord text q eq word) : eq = q + word.length := by
  have length := congrArg List.length isWord.split
  rw [List.length_append, List.length_drop, List.length_drop] at length
  have positive := List.length_pos_iff.mpr isWord.ends.1
  have inside := isWord.inside
  omega

theorem IsWord.cstring {q eq : Nat} {word : Word}
    (isWord : IsWord text q eq word) (cut : Cut text buffer)
    (nulFree : 0 ∉ text) (ended : byteAt buffer eq = 0) :
    cstring buffer q = word := by
  obtain ⟨_, wordBytes, _⟩ := isWord.ends
  have split := isWord.split
  rw [isWord.eq_add] at ended split
  exact cut.cstring nulFree split wordBytes ended

/-- What `nulterminate` leaves of the line for a part of the command. -/
structure Terminated (text before after : List UInt8)
    (reads : List UInt8 → Prop) : Prop where
  cut : Cut text after
  keeps : Keeps before after
  reads : ∀ last, Cut text last → Keeps after last → reads last

theorem Terminated.trans {before middle after : List UInt8}
    {left right both : List UInt8 → Prop}
    (first : Terminated text before middle left)
    (second : Terminated text middle after right)
    (join : ∀ last, left last → right last → both last) :
    Terminated text before after both where
  cut := second.cut
  keeps := first.keeps.trans second.keeps
  reads last cut kept :=
    join last (first.reads last cut (second.keeps.trans kept))
      (second.reads last cut kept)

theorem nulterminateArgs_spec (nulFree : 0 ∉ text) (cut : Cut text buffer)
    {spans : List (Nat × Nat)} {words : List Word} {n : Nat} (room : 0 < n)
    (spanned : List.Forall₂
      (fun span word => IsWord text span.1 span.2 word) spans words)
    {fault : Fault → Prop} :
    wp (nulterminateArgs
        (spans.map (some ·.1) ++ List.replicate n none)
        (spans.map (some ·.2) ++ List.replicate n none))
      (fun _ after => Terminated text buffer after fun last =>
        (untilNull (spans.map (some ·.1) ++ List.replicate n none)).map
          (cstring last) = words)
      fault buffer := by
  induction spanned generalizing buffer with
  | nil =>
      cases n with
      | zero => exact absurd room (Nat.lt_irrefl 0)
      | succ n =>
          apply wp_pure.mpr
          exact ⟨cut, fun _ => id, fun _ _ _ => rfl⟩
  | cons isWord _ induction =>
      obtain ⟨shorter, zero⟩ := cut.set isWord
      apply wp_bind.mpr
      apply wp_modify.mpr
      apply (induction shorter).imp
      rintro _ after ⟨cutAfter, keeps, reads⟩
      refine ⟨cutAfter, keeps_set.trans keeps, ?_⟩
      intro last cutLast kept
      have ended := kept _ (keeps _ zero)
      have first := isWord.cstring cutLast nulFree ended
      have others := reads last cutLast kept
      simp only [List.map_cons, List.cons_append, untilNull]
      rw [first, others]

theorem nulterminate_spec (nulFree : 0 ∉ text) (cut : Cut text buffer)
    {cmd : Cmd} {tree : Tree} (reads : Reads text cmd tree)
    {fault : Fault → Prop} :
    wp (nulterminate cmd)
      (fun _ after => Terminated text buffer after fun last =>
        cmd.tree last = tree)
      fault buffer := by
  induction reads generalizing buffer with
  | @exec cmd words args short =>
      obtain ⟨spans, argv, eargv, spanned⟩ := args
      unfold nulterminate
      rw [argv, eargv]
      apply (nulterminateArgs_spec nulFree cut (Nat.sub_pos_of_lt short)
        spanned).imp
      rintro _ after ⟨cutAfter, keeps, reads⟩
      refine ⟨cutAfter, keeps, ?_⟩
      intro last cutLast kept
      unfold Cmd.tree
      rw [argv, reads last cutLast kept]
  | redir reads isWord induction =>
      apply (induction cut).bind
      rintro _ middle ⟨cutMiddle, keeps, inner⟩
      obtain ⟨shorter, zero⟩ := cutMiddle.set isWord
      apply wp_modify.mpr
      refine ⟨shorter, keeps.trans keeps_set, ?_⟩
      intro last cutLast kept
      have file := isWord.cstring cutLast nulFree (kept _ zero)
      unfold Cmd.tree
      rw [inner last cutLast (keeps_set.trans kept), file]
  | pipe left right first second =>
      apply (first cut).bind
      intro _ middle one
      apply (second one.cut).imp
      intro _ after two
      apply one.trans two
      intro last leftRead rightRead
      rw [Cmd.tree, leftRead, rightRead]
  | list left right first second =>
      apply (first cut).bind
      intro _ middle one
      apply (second one.cut).imp
      intro _ after two
      apply one.trans two
      intro last leftRead rightRead
      rw [Cmd.tree, leftRead, rightRead]
  | back reads induction =>
      apply (induction cut).imp
      rintro _ after ⟨cutAfter, keeps, reads⟩
      refine ⟨cutAfter, keeps, ?_⟩
      intro last cutLast kept
      unfold Cmd.tree
      rw [reads last cutLast kept]

end Nulterminate

end Xv6.Shell
