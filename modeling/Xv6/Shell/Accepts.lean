import Xv6.Shell.Parses

/-!
# The parser accepts all of its grammar

Where the grammar derives a tree, and what follows cannot go on with it, the
parser returns that tree.  Together with soundness: `parsecmd` returns a command
for exactly the lines of the grammar, and panics on all others.
-/

namespace Xv6.Shell

open Lib

/-- The tokens that can stand behind a part of a line. -/
def Nonterminal.Follow : Nonterminal → Token → Prop
  | _, .right => True
  | .pipe, .amp | .pipe, .semi => True
  | .exec, .amp | .exec, .semi | .exec, .bar => True
  | _, _ => False

/-- Nothing stands behind, or a token that can. -/
def Nonterminal.Ends (nonterminal : Nonterminal) (rest : List Token) : Prop :=
  ∀ token ∈ rest.head?, nonterminal.Follow token

namespace Nonterminal.Ends

variable {rest : List Token}

theorem exec_of_pipe (ends : Nonterminal.pipe.Ends rest) :
    Nonterminal.exec.Ends rest := by
  intro token first
  have follow := ends token first
  cases token with
  | right | amp | semi => trivial
  | _ => exact follow.elim

theorem pipe_of_line (ends : Nonterminal.line.Ends rest) :
    Nonterminal.pipe.Ends rest := by
  intro token first
  have follow := ends token first
  cases token with
  | right => trivial
  | _ => exact follow.elim

theorem replicate (ends : Nonterminal.pipe.Ends rest) (n : Nat) :
    Nonterminal.pipe.Ends (List.replicate n .amp ++ rest) := by
  cases n with
  | zero => exact ends
  | succ n =>
      intro token first
      cases first
      trivial

/-- None of these symbols goes on with a line. -/
theorem line_stop (ends : Nonterminal.line.Ends rest) :
    ∀ token ∈ rest.head?, token.isOneOf ['&'] = false ∧
      token.isOneOf [';'] = false := by
  intro token first
  have follow := ends token first
  cases token with
  | right => exact ⟨rfl, rfl⟩
  | _ => exact follow.elim

theorem pipe_stop (ends : Nonterminal.pipe.Ends rest) :
    ∀ token ∈ rest.head?, token.isOneOf ['|'] = false := by
  intro token first
  have follow := ends token first
  cases token with
  | right | amp | semi => rfl
  | _ => exact follow.elim

theorem exec_stop (ends : Nonterminal.exec.Ends rest) :
    ∀ token ∈ rest.head?, token.isOneOf ['<', '>'] = false ∧
      token.isOneOf ['('] = false := by
  intro token first
  have follow := ends token first
  cases token with
  | right | amp | semi | bar => exact ⟨rfl, rfl⟩
  | _ => exact follow.elim

end Nonterminal.Ends

section Complete

variable {text : List UInt8} {s fuel : Nat} {rest : List Token}

theorem parseredirs_complete (nulFree : 0 ∉ text) {redirs : List Redir}
    (here : At text s (redirs.flatMap Redir.tokens ++ rest))
    (stop : ∀ token ∈ rest.head?, token.isOneOf ['<', '>'] = false)
    (enough : (redirs.flatMap Redir.tokens ++ rest).length < fuel)
    (cmd : Cmd) {fault : Fault → Prop} :
    wp (parseredirs text fuel cmd) (Redirected text redirs rest cmd) fault
      s := by
  induction redirs generalizing fuel s cmd with
  | nil =>
      cases fuel with
      | zero => exact absurd enough (Nat.not_lt_zero _)
      | succ fuel =>
          apply peek_cases nulFree here (by rfl)
          · rintro middle token others rfl found there
            rw [stop token rfl] at found
            cases found
          · intro middle _ there
            exact wp_pure.mpr (.nil there)
  | cons redir redirs induction =>
      cases fuel with
      | zero => exact absurd enough (Nat.not_lt_zero _)
      | succ fuel =>
          apply peek_cases nulFree here (by rfl)
          · rintro middle token others same found there
            apply (gettoken_spec nulFree there).bind
            rintro ⟨tok, _, _⟩ next arrow
            apply (gettoken_spec nulFree arrow.rest).bind
            rintro ⟨word, q, eq⟩ after file
            have code : tok = (Token.arrow redir.arrow).code := arrow.code
            have isWord : ¬ word ≠ 'a'.toUInt8 :=
              Decidable.not_not.mpr file.code
            simp only
            rw [if_neg isWord, code, redircmd_code]
            have fewer :
                (redirs.flatMap Redir.tokens ++ rest).length < fuel := by
              simp only [List.flatMap_cons, Redir.tokens, List.cons_append,
                List.nil_append, List.length_cons] at enough
              omega
            apply (induction file.rest fewer _).imp
            intro result last others
            exact others.cons (file.word redir.file rfl)
          · intro middle missing _
            have absent := missing (.arrow redir.arrow) rfl
            cases arrow : redir.arrow <;> rw [arrow] at absent <;> cases absent

theorem parseback_complete (nulFree : 0 ∉ text) {n : Nat}
    (here : At text s (List.replicate n .amp ++ rest))
    (stop : ∀ token ∈ rest.head?, token.isOneOf ['&'] = false)
    (enough : (List.replicate n Token.amp ++ rest).length < fuel) {cmd : Cmd}
    {tree : Tree} (reads : Reads text cmd tree) {fault : Fault → Prop} :
    wp (parseback text fuel cmd)
      (fun result after => Reads text result (background n tree) ∧
        At text after rest) fault s := by
  induction n generalizing fuel s cmd tree with
  | zero =>
      cases fuel with
      | zero => exact absurd enough (Nat.not_lt_zero _)
      | succ fuel =>
          apply peek_cases nulFree here (by rfl)
          · rintro middle token others rfl found there
            rw [stop token rfl] at found
            cases found
          · intro middle _ there
            exact wp_pure.mpr ⟨reads, there⟩
  | succ n induction =>
      cases fuel with
      | zero => exact absurd enough (Nat.not_lt_zero _)
      | succ fuel =>
          apply peek_cases nulFree here (by rfl)
          · rintro middle token others same found there
            apply (gettoken_spec nulFree there).bind
            intro _ next taken
            exact induction taken.rest (Nat.lt_of_succ_lt_succ enough)
              (.back reads)
          · intro middle missing _
            have absent := missing .amp rfl
            cases absent

/-- The end of a command: a symbol that `parseexec` looks for, or nothing. -/
private theorem parseargs_end (nulFree : 0 ∉ text) (here : At text s rest)
    (ends : Nonterminal.exec.Ends rest) {ret : Cmd} {redirs : List Redir}
    {words : List Word} (building : Building text ret redirs words)
    {fault : Fault → Prop} :
    wp (parseargs text (fuel + 1) ret words.length)
      (Completed text [] rest redirs words) fault s := by
  unfold parseargs
  apply peek_cases nulFree here (by rfl)
  · intro middle _ _ _ _ there
    apply (setArg_null building).imp
    rintro result after ⟨rfl, reads⟩
    exact .nil reads there
  · intro middle missing there
    cases rest with
    | cons token others =>
        have follow := ends token rfl
        have absent := missing token rfl
        cases token with
        | right | amp | semi | bar => cases absent
        | _ => exact follow.elim
    | nil =>
        apply (gettoken_end there).bind
        rintro ⟨tok, q, eq⟩ next ⟨zero, ending⟩
        simp only
        rw [if_pos zero]
        apply (setArg_null building).imp
        rintro result after ⟨rfl, reads⟩
        exact .nil reads ending

/-- No redirection starts behind the redirections of an argument. -/
private theorem arguments_stop {arguments : List Argument}
    (ends : Nonterminal.exec.Ends rest) :
    ∀ token ∈ (arguments.flatMap Argument.tokens ++ rest).head?,
      token.isOneOf ['<', '>'] = false := by
  intro token first
  cases arguments with
  | nil => exact (ends.exec_stop token first).1
  | cons argument arguments =>
      cases first
      rfl

theorem parseargs_complete (nulFree : 0 ∉ text) {arguments : List Argument}
    (here : At text s (arguments.flatMap Argument.tokens ++ rest))
    (ends : Nonterminal.exec.Ends rest)
    (enough : (arguments.flatMap Argument.tokens ++ rest).length < fuel)
    {ret : Cmd} {redirs : List Redir} {words : List Word}
    (short : words.length + arguments.length < maxargs)
    (building : Building text ret redirs words) {fault : Fault → Prop} :
    wp (parseargs text fuel ret words.length)
      (Completed text arguments rest redirs words) fault s := by
  induction arguments generalizing fuel s ret redirs words with
  | nil =>
      cases fuel with
      | zero => exact absurd enough (Nat.not_lt_zero _)
      | succ fuel => exact parseargs_end nulFree here ends building
  | cons argument arguments induction =>
      cases fuel with
      | zero => exact absurd enough (Nat.not_lt_zero _)
      | succ fuel =>
          rw [List.length_cons] at short
          have fewer : (argument.redirs.flatMap Redir.tokens ++
              (arguments.flatMap Argument.tokens ++ rest)).length < fuel := by
            simp only [List.flatMap_cons, Argument.tokens, List.cons_append,
              List.append_assoc, List.length_cons] at enough
            omega
          have less :
              (arguments.flatMap Argument.tokens ++ rest).length < fuel := by
            rw [List.length_append] at fewer
            omega
          rw [List.flatMap_cons, Argument.tokens, List.cons_append,
            List.cons_append, List.append_assoc] at here
          unfold parseargs
          apply peek_cases nulFree here (by rfl)
          · rintro middle token others same found there
            cases same
            cases found
          · intro middle _ there
            apply (gettoken_spec nulFree there).bind
            rintro ⟨tok, q, eq⟩ next taken
            have letter : tok = 'a'.toUInt8 := taken.code
            simp only
            rw [letter, if_neg (by decide), if_neg (by decide)]
            apply (setArg_word building (taken.word _ rfl)).bind
            rintro ret' _ ⟨rfl, extended⟩
            rw [if_neg (by omega)]
            apply (parseredirs_complete nulFree taken.rest
              (arguments_stop ends) fewer ret').bind
            intro wrapped after redirected
            obtain ⟨building', behind⟩ :=
              (extended (by omega)).redirected redirected
            have step := induction behind less
              (by rw [List.length_append, List.length_singleton]; omega)
              building'
            rw [List.length_append, List.length_singleton] at step
            apply step.imp
            intro result last completed
            exact completed.cons

/-- The function for a part of a line, and the fuel it needs. -/
def parse (text : List UInt8) : Nonterminal → Nat → Code Cmd
  | .line => parseline text
  | .pipe => parsepipe text
  | .exec => parseexec text

def Nonterminal.need : Nonterminal → Nat → Nat
  | .line, n => 4 * n + 3
  | .pipe, n => 4 * n + 2
  | .exec, n => 4 * n + 1

/-- The function has returned the tree and left the rest. -/
def Returned (text : List UInt8) (tree : Tree) (rest : List Token)
    (result : Cmd) (after : Nat) : Prop :=
  Reads text result tree ∧ At text after rest

/-- `parseline` behind its call of `parsepipe`. -/
private theorem parseline_complete (nulFree : 0 ∉ text) {n : Nat}
    {tree : Tree} {fault : Fault → Prop} {post : Cmd → Nat → Prop}
    (stop : ∀ token ∈ rest.head?, token.isOneOf ['&'] = false)
    (enough : (List.replicate n Token.amp ++ rest).length < fuel)
    (pipe : wp (parsepipe text fuel)
      (Returned text tree (List.replicate n .amp ++ rest)) fault s)
    (next : ∀ cmd after, Returned text (background n tree) rest cmd after →
      wp (do
        if ← peek text [';'] then
          let _ ← gettoken text
          pure (.list cmd (← parseline text fuel))
        else pure cmd) post fault after) :
    wp (parseline text (fuel + 1)) post fault s := by
  unfold parseline
  apply pipe.bind
  rintro cmd middle ⟨reads, there⟩
  apply (parseback_complete nulFree there stop enough reads).bind
  intro cmd after returned
  exact next cmd after returned

/-- A branch on a symbol that is the next token. -/
private theorem peek_found {α : Type} (nulFree : 0 ∉ text) {token : Token}
    {toks : List Char} (here : At text s (token :: rest))
    (known : Known toks)
    (one : token.isOneOf toks) {yes no : Code α} {post : α → Nat → Prop}
    {fault : Fault → Prop}
    (found : ∀ after, At text after (token :: rest) →
      wp yes post fault after) :
    wp (do if ← peek text toks then yes else no) post fault s := by
  apply peek_cases nulFree here known
  · intro after _ _ _ _ there
    exact found after there
  · intro after missing _
    rw [missing token rfl] at one
    cases one

/-- A branch on a symbol that is not the next token. -/
private theorem peek_missing {α : Type} (nulFree : 0 ∉ text)
    {tokens : List Token} {toks : List Char} (here : At text s tokens)
    (known : Known toks)
    (none : ∀ token ∈ tokens.head?, token.isOneOf toks = false)
    {yes no : Code α} {post : α → Nat → Prop} {fault : Fault → Prop}
    (missing : ∀ after, At text after tokens → wp no post fault after) :
    wp (do if ← peek text toks then yes else no) post fault s := by
  apply peek_cases nulFree here known
  · rintro after token others rfl found _
    rw [none token rfl] at found
    cases found
  · intro after _ there
    exact missing after there

private theorem exists_succ {n : Nat} (enough : n < fuel) :
    ∃ less, fuel = less + 1 ∧ n ≤ less := by
  cases fuel with
  | zero => exact absurd enough (Nat.not_lt_zero n)
  | succ less => exact ⟨less, rfl, Nat.le_of_lt_succ enough⟩

/-- What the grammar derives, the parser returns. -/
theorem complete (nulFree : 0 ∉ text) {nonterminal : Nonterminal}
    {used : List Token} {tree : Tree} (derives : Derives nonterminal used tree)
    (ends : nonterminal.Ends rest) (here : At text s (used ++ rest))
    (enough : nonterminal.need (used ++ rest).length < fuel)
    {fault : Fault → Prop} :
    wp (parse text nonterminal fuel) (Returned text tree rest) fault s := by
  induction derives generalizing fuel s rest with
  | @line tokens tree n derives induction =>
      rw [List.append_assoc] at here enough
      obtain ⟨fuel, rfl, less⟩ := exists_succ enough
      have fewer : (List.replicate n Token.amp ++ rest).length < fuel := by
        simp only [Nonterminal.need, List.length_append] at less ⊢
        omega
      apply parseline_complete nulFree
        (fun token first => (ends.line_stop token first).1) fewer
        (induction (ends.pipe_of_line.replicate n) here less)
      rintro cmd middle ⟨reads, there⟩
      apply peek_missing nulFree there (by rfl)
        fun token first => (ends.line_stop token first).2
      intro after there
      exact wp_pure.mpr ⟨reads, there⟩
  | @list tokens others left right n first second one two =>
      rw [List.append_assoc, List.append_assoc, List.cons_append] at here enough
      obtain ⟨fuel, rfl, less⟩ := exists_succ enough
      have fewer :
          (List.replicate n Token.amp ++ .semi :: (others ++ rest)).length <
            fuel := by
        simp only [Nonterminal.need, List.length_append] at less ⊢
        omega
      have behind : Nonterminal.pipe.Ends (.semi :: (others ++ rest)) := by
        rintro token ⟨⟩
        trivial
      apply parseline_complete nulFree (by rintro token ⟨⟩; rfl) fewer
        (one (behind.replicate n) here less)
      rintro cmd middle ⟨reads, there⟩
      apply peek_found nulFree there (by rfl) rfl
      intro after there
      apply (gettoken_spec nulFree there).bind
      intro _ next taken
      have enough' : Nonterminal.line.need (others ++ rest).length < fuel := by
        unfold Nonterminal.need at less ⊢
        simp only [List.length_append, List.length_cons] at less ⊢
        omega
      apply (two ends taken.rest enough').bind
      rintro other last ⟨reads', there⟩
      exact wp_pure.mpr ⟨.list reads reads', there⟩
  | @exec tokens tree derives induction =>
      obtain ⟨fuel, rfl, less⟩ := exists_succ enough
      simp only [parse]
      unfold parsepipe
      apply (induction ends.exec_of_pipe here less).bind
      rintro cmd middle ⟨reads, there⟩
      apply peek_missing nulFree there (by rfl) ends.pipe_stop
      intro after there
      exact wp_pure.mpr ⟨reads, there⟩
  | @pipe tokens others left right first second one two =>
      rw [List.append_assoc, List.cons_append] at here enough
      obtain ⟨fuel, rfl, less⟩ := exists_succ enough
      have behind : Nonterminal.exec.Ends (.bar :: (others ++ rest)) := by
        rintro token ⟨⟩
        trivial
      simp only [parse]
      unfold parsepipe
      apply (one behind here less).bind
      rintro cmd middle ⟨reads, there⟩
      apply peek_found nulFree there (by rfl) rfl
      intro after there
      apply (gettoken_spec nulFree there).bind
      intro _ next taken
      have enough' : Nonterminal.pipe.need (others ++ rest).length < fuel := by
        unfold Nonterminal.need at less ⊢
        simp only [List.length_append, List.length_cons] at less ⊢
        omega
      apply (two ends taken.rest enough').bind
      rintro other last ⟨reads', there⟩
      exact wp_pure.mpr ⟨.pipe reads reads', there⟩
  | @block tokens tree redirs derives induction =>
      rw [List.cons_append, List.cons_append, List.append_assoc,
        List.cons_append] at here enough
      obtain ⟨fuel, rfl, less⟩ := exists_succ enough
      obtain ⟨fuel, rfl, less⟩ :=
        exists_succ (Nat.lt_of_lt_of_le (Nat.lt_succ_self _) less)
      simp only [parse]
      unfold parseexec
      apply peek_found nulFree here (by rfl) rfl
      intro middle there
      unfold parseblock
      apply peek_found nulFree there (by rfl) rfl
      intro after there
      apply (gettoken_spec nulFree there).bind
      intro _ next taken
      have behind : Nonterminal.line.Ends
          (.right :: (redirs.flatMap Redir.tokens ++ rest)) := by
        rintro token ⟨⟩
        trivial
      have enough' : Nonterminal.line.need (tokens ++
          .right :: (redirs.flatMap Redir.tokens ++ rest)).length < fuel := by
        unfold Nonterminal.need at less ⊢
        simp only [List.length_append, List.length_cons] at less ⊢
        omega
      apply (induction behind taken.rest enough').bind
      rintro cmd middle ⟨reads, there⟩
      apply peek_found nulFree there (by rfl) rfl
      intro after there
      apply (gettoken_spec nulFree there).bind
      intro _ next taken
      have fewer : (redirs.flatMap Redir.tokens ++ rest).length < fuel := by
        unfold Nonterminal.need at less
        simp only [List.length_append, List.length_cons] at less ⊢
        omega
      apply (parseredirs_complete nulFree taken.rest
        (fun token first => (ends.exec_stop token first).1) fewer cmd).imp
      rintro result last ⟨places, rfl, redirected, there⟩
      exact ⟨reads.wrap redirected, there⟩
  | simple redirs arguments short =>
      rw [List.append_assoc] at here enough
      obtain ⟨fuel, rfl, less⟩ := exists_succ enough
      have noBlock : ∀ token ∈ (redirs.flatMap Redir.tokens ++
          (arguments.flatMap Argument.tokens ++ rest)).head?,
          token.isOneOf ['('] = false := by
        intro token first
        cases redirs with
        | cons redir redirs =>
            cases first
            cases redir.arrow <;> rfl
        | nil =>
            cases arguments with
            | cons argument arguments =>
                cases first
                rfl
            | nil => exact (ends.exec_stop token first).2
      have fewer : (redirs.flatMap Redir.tokens ++
          (arguments.flatMap Argument.tokens ++ rest)).length < fuel := by
        simp only [Nonterminal.need] at less
        omega
      have less :
          (arguments.flatMap Argument.tokens ++ rest).length < fuel := by
        rw [List.length_append] at fewer
        omega
      simp only [parse]
      unfold parseexec
      apply peek_missing nulFree here (by rfl) noBlock
      intro middle there
      have empty : Building text execcmd [] [] :=
        ⟨⟨[], _, rfl, .nil, .empty⟩, by decide⟩
      apply (parseredirs_complete nulFree there (arguments_stop ends) fewer
        execcmd).bind
      intro ret next redirected
      obtain ⟨building, there⟩ := empty.redirected redirected
      apply (parseargs_complete nulFree there ends less
        (by rw [List.length_nil, Nat.zero_add]; exact short) building).imp
      intro result last completed
      exact ⟨completed.reads, completed.there⟩

end Complete

/-! ## Whole lines -/

/-- The fuel that is enough for a line. -/
def fuelFor (text : List UInt8) : Nat := 4 * text.length + 4

theorem At.start {text : List UInt8} {tokens : List Token}
    (lexes : Lexes text tokens) : At text 0 tokens :=
  ⟨Nat.zero_le _, lexes⟩

section Lines

variable {text : List UInt8} {fuel s : Nat} {cmd : Cmd} {tree : Tree}

private theorem nothing_known : Known [] := rfl

/-- A command without leftovers. -/
theorem parsecmd_whole (nulFree : 0 ∉ text)
    (parsed : (parseline text fuel).run 0 = .ok (cmd, s))
    (there : At text s []) (reads : Reads text cmd tree) :
    ∃ buffer, parsecmd fuel text = .ok (cmd, buffer) ∧
      cmd.tree buffer = tree := by
  obtain ⟨_, after, peeked, _, _, atEnd⟩ :=
    (peek_spec nulFree there nothing_known).returns
  obtain ⟨_, buffer, ended, terminated⟩ :=
    (nulterminate_spec nulFree Cut.start reads).returns
  refine ⟨buffer, ?_, terminated.reads buffer terminated.cut fun _ => id⟩
  unfold parsecmd
  rw [parsed]
  simp only [bind, Except.bind]
  rw [peeked]
  simp only
  rw [if_neg (Decidable.not_not.mpr (atEnd.mpr rfl)), ended]
  rfl

/-- A command with leftovers. -/
theorem parsecmd_leftovers (nulFree : 0 ∉ text) {token : Token}
    {rest : List Token}
    (parsed : (parseline text fuel).run 0 = .ok (cmd, s))
    (there : At text s (token :: rest)) :
    parsecmd fuel text = .error (.panic "syntax") := by
  obtain ⟨_, after, peeked, _, _, atEnd⟩ :=
    (peek_spec nulFree there nothing_known).returns
  unfold parsecmd
  rw [parsed]
  simp only [bind, Except.bind]
  rw [peeked]
  simp only
  rw [if_pos (fun last => nomatch atEnd.mp last)]
  rfl

/-- With enough fuel `parsecmd` returns a command for a line of the grammar
that it has parsed, or panics. -/
theorem parsecmd_cases (nulFree : 0 ∉ text) (enough : fuelFor text ≤ fuel) :
    (∃ cmd buffer tree, parsecmd fuel text = .ok (cmd, buffer) ∧
      cmd.tree buffer = tree ∧ Means text tree ∧ Reads text cmd tree) ∨
    ∃ message, parsecmd fuel text = .error (.panic message) := by
  obtain ⟨tokens, lexes⟩ := exists_lexes text
  have length := lexes.length_le
  have sounds : Sound text fuel := sound nulFree
  have parses := sounds.line (At.start lexes)
    (by unfold fuelFor at enough; omega)
  cases parsed : (parseline text fuel).run 0 with
  | error reason =>
      obtain ⟨message, rfl⟩ := parses.error parsed
      right
      refine ⟨message, ?_⟩
      unfold parsecmd
      rw [parsed]
      rfl
  | ok result =>
      obtain ⟨used, rest, tree, split, derives, reads, there⟩ :=
        parses.ok parsed
      cases rest with
      | cons token rest =>
          exact .inr ⟨_, parsecmd_leftovers nulFree parsed there⟩
      | nil =>
          obtain ⟨buffer, returned, read⟩ :=
            parsecmd_whole nulFree parsed there reads
          rw [List.append_nil] at split
          rw [split] at lexes
          exact .inl ⟨_, buffer, tree, returned, read, ⟨used, lexes, derives⟩,
            reads⟩

/-- A line of the grammar is parsed. -/
theorem parsecmd_of_means (nulFree : 0 ∉ text) (enough : fuelFor text ≤ fuel)
    (means : Means text tree) :
    ∃ cmd buffer, parsecmd fuel text = .ok (cmd, buffer) ∧
      cmd.tree buffer = tree := by
  obtain ⟨tokens, lexes, derives⟩ := means
  have length := lexes.length_le
  have returns : wp (parseline text fuel) (Returned text tree [])
      (fun _ => False) 0 := by
    apply complete nulFree derives (by nofun)
    · rw [List.append_nil]
      exact .start lexes
    · rw [List.append_nil]
      unfold fuelFor at enough
      simp only [Nonterminal.need]
      omega
  obtain ⟨cmd, s, parsed, reads, there⟩ := returns.returns
  obtain ⟨buffer, whole, read⟩ := parsecmd_whole nulFree parsed there reads
  exact ⟨cmd, buffer, whole, read⟩

/-- The shell parses exactly the lines of its grammar, to the tree that the
grammar derives, and panics on every other line.  Neither does it run out of
fuel, nor does it use `argv` out of bounds. -/
theorem parsecmd_iff_means (nulFree : 0 ∉ text)
    (enough : fuelFor text ≤ fuel) :
    (∀ tree, (∃ cmd buffer, parsecmd fuel text = .ok (cmd, buffer) ∧
      cmd.tree buffer = tree) ↔ Means text tree) ∧
    ∀ reason, parsecmd fuel text = .error reason →
      ∃ message, reason = .panic message := by
  refine ⟨fun tree => ⟨?_, parsecmd_of_means nulFree enough⟩, ?_⟩
  · rintro ⟨cmd, buffer, returned, rfl⟩
    rcases parsecmd_cases nulFree enough with
      ⟨_, _, _, same, rfl, means, _⟩ | ⟨_, failed⟩
    · rw [returned] at same
      cases same
      exact means
    · rw [returned] at failed
      cases failed
  · intro reason failed
    rcases parsecmd_cases nulFree enough with
      ⟨_, _, _, returned, _⟩ | ⟨message, same⟩
    · rw [failed] at returned
      cases returned
    · rw [failed] at same
      cases same
      exact ⟨message, rfl⟩

/-- `a<b|c&` runs a pipe in the background, and `a<` lacks a file. -/
theorem parsecmd_iff_means_pipe :
    Means (['a', '<', 'b', '|', 'c', '&'].map Char.toUInt8)
      (.back (.pipe
        (.redir (.exec [['a'.toUInt8]]) ['b'.toUInt8] .read 0)
        (.exec [['c'.toUInt8]]))) ∧
    ∀ tree, ¬ Means (['a', '<'].map Char.toUInt8) tree := by
  constructor
  · apply ((parsecmd_iff_means (by decide) (Nat.le_refl _)).1 _).mp
    exact ⟨_, _, rfl, rfl⟩
  · intro tree means
    obtain ⟨_, _, returned, _⟩ :=
      ((parsecmd_iff_means (by decide) (Nat.le_refl _)).1 tree).mpr means
    cases returned

end Lines

end Xv6.Shell
