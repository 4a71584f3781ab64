import Xv6.Shell.Reads

/-!
# The parser accepts its grammar

Two passes over the functions of the parser.  What a function returns was
derived from the tokens that it has consumed, and it stops with a panic
otherwise.  Where the grammar derives a tree, and a token follows that cannot
go on with it, the function returns that tree.
-/

namespace Xv6.Shell

open Lib

namespace Token

variable {token : Token}

theorem eq_amp (found : token.isOneOf ['&']) : token = .amp := by
  cases token with
  | amp => rfl
  | arrow arrow => cases arrow <;> cases found
  | _ => cases found

theorem eq_semi (found : token.isOneOf [';']) : token = .semi := by
  cases token with
  | semi => rfl
  | arrow arrow => cases arrow <;> cases found
  | _ => cases found

theorem eq_bar (found : token.isOneOf ['|']) : token = .bar := by
  cases token with
  | bar => rfl
  | arrow arrow => cases arrow <;> cases found
  | _ => cases found

theorem eq_left (found : token.isOneOf ['(']) : token = .left := by
  cases token with
  | left => rfl
  | arrow arrow => cases arrow <;> cases found
  | _ => cases found

theorem eq_right (found : token.isOneOf [')']) : token = .right := by
  cases token with
  | right => rfl
  | arrow arrow => cases arrow <;> cases found
  | _ => cases found

theorem exists_arrow (found : token.isOneOf ['<', '>']) :
    ∃ arrow, token = .arrow arrow := by
  cases token with
  | arrow arrow => exact ⟨arrow, rfl⟩
  | _ => cases found

theorem exists_word (found : token.code = 'a'.toUInt8) :
    ∃ word, token = .word word := by
  cases token with
  | word word => exact ⟨word, rfl⟩
  | arrow arrow => cases arrow <;> cases found
  | _ => cases found

theorem code_ne_zero : token.code ≠ 0 := by
  cases token with
  | arrow arrow => cases arrow <;> decide
  | word word =>
      have letter : 'a'.toUInt8 ≠ 0 := by decide
      exact letter
  | _ => decide

end Token

/-- The parser gave up with a message. -/
def IsPanic (reason : Fault) : Prop := ∃ message, reason = .panic message

section Sound

variable {text : List UInt8} {s fuel : Nat} {tokens : List Token}

theorem redircmd_code (cmd : Cmd) (arrow : Arrow) (q eq : Nat) :
    redircmd (Token.arrow arrow).code cmd q eq =
      Place.around cmd ⟨arrow, q, eq⟩ := by
  cases arrow <;> rfl

/-- Redirections have been put around a command, and the rest is left. -/
def Redirected (text : List UInt8) (redirs : List Redir) (rest : List Token)
    (cmd result : Cmd) (after : Nat) : Prop :=
  ∃ places, result = places.foldl Place.around cmd ∧
    List.Forall₂ (Place.Reads text) places redirs ∧ At text after rest

theorem Redirected.nil {cmd : Cmd} (here : At text s tokens) :
    Redirected text [] tokens cmd cmd s :=
  ⟨[], rfl, .nil, here⟩

theorem Redirected.cons {arrow : Arrow} {word : Word} {q eq after : Nat}
    {redirs : List Redir} {cmd result : Cmd} (isWord : IsWord text q eq word)
    (others : Redirected text redirs tokens
      (Place.around cmd ⟨arrow, q, eq⟩) result after) :
    Redirected text (⟨arrow, word⟩ :: redirs) tokens cmd result after := by
  obtain ⟨places, around, reads, there⟩ := others
  exact ⟨⟨arrow, q, eq⟩ :: places, around, .cons ⟨rfl, isWord⟩ reads, there⟩

theorem parseredirs_sound (nulFree : 0 ∉ text) (here : At text s tokens)
    (enough : tokens.length < fuel) (cmd : Cmd) :
    wp (parseredirs text fuel cmd)
      (fun result after => ∃ redirs rest,
        tokens = redirs.flatMap Redir.tokens ++ rest ∧
        Redirected text redirs rest cmd result after) IsPanic s := by
  induction fuel generalizing s tokens cmd with
  | zero => exact absurd enough (Nat.not_lt_zero _)
  | succ fuel induction =>
      apply peek_cases nulFree here (by rfl)
      · rintro middle token rest rfl found there
        obtain ⟨arrow, rfl⟩ := Token.exists_arrow found
        apply (gettoken_spec nulFree there).bind
        rintro ⟨tok, _, _⟩ next taken
        have code : tok = (Token.arrow arrow).code := taken.code
        cases rest with
        | nil =>
            apply (gettoken_end taken.rest).bind
            rintro ⟨word, q, eq⟩ after ⟨zero, _⟩
            have other : word ≠ 'a'.toUInt8 := by
              rw [show word = 0 from zero]
              decide
            simp only
            rw [if_pos other]
            exact wp_throw.mpr ⟨_, rfl⟩
        | cons token rest =>
            apply (gettoken_spec nulFree taken.rest).bind
            rintro ⟨word, q, eq⟩ after file
            simp only
            split
            · exact wp_throw.mpr ⟨_, rfl⟩
            · rename_i isWord
              obtain ⟨name, rfl⟩ := Token.exists_word
                (file.code.symm.trans (Decidable.not_not.mp isWord))
              rw [code, redircmd_code]
              have fewer : rest.length < fuel := by
                simp only [List.length_cons] at enough
                omega
              apply (induction file.rest fewer _).imp
              rintro result last ⟨redirs, rest, rfl, others⟩
              exact ⟨⟨arrow, name⟩ :: redirs, rest, rfl,
                others.cons (file.word name rfl)⟩
      · intro after _ there
        exact wp_pure.mpr ⟨[], tokens, rfl, .nil there⟩

theorem parseback_sound (nulFree : 0 ∉ text) (here : At text s tokens)
    (enough : tokens.length < fuel) {cmd : Cmd} {tree : Tree}
    (reads : Reads text cmd tree) :
    wp (parseback text fuel cmd)
      (fun result after => ∃ n rest, tokens = List.replicate n .amp ++ rest ∧
        Reads text result (background n tree) ∧ At text after rest)
      IsPanic s := by
  induction fuel generalizing s tokens cmd tree with
  | zero => exact absurd enough (Nat.not_lt_zero _)
  | succ fuel induction =>
      apply peek_cases nulFree here (by rfl)
      · rintro middle token rest rfl found there
        obtain rfl := Token.eq_amp found
        apply (gettoken_spec nulFree there).bind
        intro _ next taken
        have fewer : rest.length < fuel := Nat.lt_of_succ_lt_succ enough
        apply (induction taken.rest fewer (.back reads)).imp
        rintro result last ⟨n, others, rfl, read, after⟩
        exact ⟨n + 1, others, rfl, read, after⟩
      · intro after _ there
        exact wp_pure.mpr ⟨0, tokens, rfl, reads, there⟩

/-- The command that `parseexec` is working on. -/
structure Building (text : List UInt8) (ret : Cmd) (redirs : List Redir)
    (words : List Word) : Prop where
  build : ∃ places cmd, ret = places.foldl Place.around (.exec cmd) ∧
    List.Forall₂ (Place.Reads text) places redirs ∧ cmd.Reads text words
  short : words.length < maxargs

theorem setArg_null {ret : Cmd} {redirs : List Redir} {words : List Word}
    (building : Building text ret redirs words) {fault : Fault → Prop} :
    wp (setArg ret words.length none none)
      (fun result after => after = s ∧
        Reads text result (wrap redirs (.exec words))) fault s := by
  obtain ⟨⟨places, cmd, rfl, redirected, reads⟩, short⟩ := building
  unfold setArg
  rw [if_pos short, setExec_wrap]
  exact wp_pure.mpr
    ⟨rfl, (Reads.exec (reads.finish short) short).wrap redirected⟩

theorem setArg_word {ret : Cmd} {redirs : List Redir} {words : List Word}
    {word : Word} {q eq : Nat} (building : Building text ret redirs words)
    (isWord : IsWord text q eq word) {fault : Fault → Prop} :
    wp (setArg ret words.length (some q) (some eq))
      (fun result after => after = s ∧
        (words.length + 1 < maxargs →
          Building text result redirs (words ++ [word]))) fault s := by
  obtain ⟨⟨places, cmd, rfl, redirected, reads⟩, short⟩ := building
  unfold setArg
  rw [if_pos short, setExec_wrap]
  refine wp_pure.mpr ⟨rfl, fun room => ⟨⟨places, _, rfl, redirected,
    reads.push short isWord⟩, ?_⟩⟩
  rw [List.length_append]
  exact room

theorem Building.redirected {ret result : Cmd} {redirs more : List Redir}
    {words : List Word} {after : Nat}
    (building : Building text ret redirs words)
    (redirected : Redirected text more tokens ret result after) :
    Building text result (redirs ++ more) words ∧ At text after tokens := by
  obtain ⟨⟨places, cmd, rfl, reading, reads⟩, short⟩ := building
  obtain ⟨others, rfl, moreReading, there⟩ := redirected
  refine ⟨⟨⟨places ++ others, cmd, ?_, ?_, reads⟩, short⟩, there⟩
  · rw [List.foldl_append]
  · exact List.rel_append reading moreReading

/-- Arguments have been added to a command, and the rest is left. -/
structure Completed (text : List UInt8) (arguments : List Argument)
    (rest : List Token) (redirs : List Redir) (words : List Word)
    (result : Cmd) (after : Nat) : Prop where
  reads : Reads text result
    (wrap (redirs ++ arguments.flatMap Argument.redirs)
      (.exec (words ++ arguments.map Argument.word)))
  there : At text after rest

theorem Completed.nil {ret : Cmd} {redirs : List Redir} {words : List Word}
    (reads : Reads text ret (wrap redirs (.exec words)))
    (there : At text s tokens) :
    Completed text [] tokens redirs words ret s := by
  refine ⟨?_, there⟩
  rw [List.flatMap_nil, List.map_nil, List.append_nil, List.append_nil]
  exact reads

theorem Completed.cons {arguments : List Argument} {redirs more : List Redir}
    {words : List Word} {word : Word} {result : Cmd} {after : Nat}
    (others : Completed text arguments tokens (redirs ++ more)
      (words ++ [word]) result after) :
    Completed text (⟨word, more⟩ :: arguments) tokens redirs words result
      after := by
  refine ⟨?_, others.there⟩
  simpa using others.reads

theorem parseargs_sound (nulFree : 0 ∉ text) (here : At text s tokens)
    (enough : tokens.length < fuel) {ret : Cmd} {redirs : List Redir}
    {words : List Word} (building : Building text ret redirs words) :
    wp (parseargs text fuel ret words.length)
      (fun result after => ∃ (arguments : List Argument) (rest : List Token),
        tokens = arguments.flatMap Argument.tokens ++ rest ∧
        words.length + arguments.length < maxargs ∧
        Completed text arguments rest redirs words result after)
      IsPanic s := by
  induction fuel generalizing s tokens ret redirs words with
  | zero => exact absurd enough (Nat.not_lt_zero _)
  | succ fuel induction =>
      apply peek_cases nulFree here (by rfl)
      · intro middle _ _ _ _ there
        apply (setArg_null building).imp
        rintro result after ⟨rfl, reads⟩
        exact ⟨[], tokens, rfl, building.short, .nil reads there⟩
      · intro middle _ there
        cases tokens with
        | nil =>
            apply (gettoken_end there).bind
            rintro ⟨tok, q, eq⟩ next ⟨zero, ending⟩
            simp only
            rw [if_pos zero]
            apply (setArg_null building).imp
            rintro result after ⟨rfl, reads⟩
            exact ⟨[], [], rfl, building.short, .nil reads ending⟩
        | cons token tokens =>
            apply (gettoken_spec nulFree there).bind
            rintro ⟨tok, q, eq⟩ next taken
            have code : tok = token.code := taken.code
            simp only
            rw [if_neg (by rw [code]; exact Token.code_ne_zero)]
            split
            · exact wp_throw.mpr ⟨_, rfl⟩
            · rename_i isWord
              obtain ⟨word, rfl⟩ := Token.exists_word
                (code.symm.trans (Decidable.not_not.mp isWord))
              apply (setArg_word building (taken.word word rfl)).bind
              rintro ret' _ ⟨rfl, extended⟩
              split
              · exact wp_throw.mpr ⟨_, rfl⟩
              · rename_i room
                have building' := extended (Nat.lt_of_not_le room)
                have fewer : tokens.length < fuel :=
                  Nat.lt_of_succ_lt_succ enough
                apply (parseredirs_sound nulFree taken.rest fewer ret').bind
                rintro wrapped after ⟨more, rest, rfl, redirected⟩
                obtain ⟨building'', behind⟩ :=
                  building'.redirected redirected
                have less : rest.length < fuel := by
                  rw [List.length_append] at fewer
                  omega
                have step := induction behind less building''
                rw [List.length_append, List.length_singleton] at step
                apply step.imp
                rintro result last ⟨arguments, others, rfl, short, completed⟩
                refine ⟨⟨word, more⟩ :: arguments, others, ?_, ?_,
                  completed.cons⟩
                · simp [Argument.tokens]
                · rw [List.length_cons]
                  omega

/-- A function has parsed a part of the tokens. -/
def Parsed (text : List UInt8) (nonterminal : Nonterminal)
    (tokens : List Token) (result : Cmd) (after : Nat) : Prop :=
  ∃ used rest tree, tokens = used ++ rest ∧ Derives nonterminal used tree ∧
    Reads text result tree ∧ At text after rest

/-- What is known of the four functions with less fuel. -/
structure Sound (text : List UInt8) (fuel : Nat) : Prop where
  line : ∀ {s tokens}, At text s tokens → 4 * tokens.length + 4 ≤ fuel →
    wp (parseline text fuel) (Parsed text .line tokens) IsPanic s
  pipe : ∀ {s tokens}, At text s tokens → 4 * tokens.length + 3 ≤ fuel →
    wp (parsepipe text fuel) (Parsed text .pipe tokens) IsPanic s
  exec : ∀ {s tokens}, At text s tokens → 4 * tokens.length + 2 ≤ fuel →
    wp (parseexec text fuel) (Parsed text .exec tokens) IsPanic s
  block : ∀ {s tokens}, At text s tokens → 4 * tokens.length + 1 ≤ fuel →
    wp (parseblock text fuel) (Parsed text .exec tokens) IsPanic s

theorem parseline_sound (nulFree : 0 ∉ text) (sound : Sound text fuel)
    (here : At text s tokens) (enough : 4 * tokens.length + 4 ≤ fuel + 1) :
    wp (parseline text (fuel + 1)) (Parsed text .line tokens) IsPanic s := by
  unfold parseline
  apply (sound.pipe here (by omega)).bind
  rintro cmd middle ⟨used, rest, tree, rfl, derives, reads, there⟩
  rw [List.length_append] at enough
  apply (parseback_sound nulFree there (by omega) reads).bind
  rintro cmd next ⟨n, rest, rfl, reads, there⟩
  rw [List.length_append] at enough
  apply peek_cases nulFree there (by rfl)
  · rintro middle token rest rfl found there
    obtain rfl := Token.eq_semi found
    rw [List.length_cons] at enough
    apply (gettoken_spec nulFree there).bind
    intro _ next taken
    apply (sound.line taken.rest (by omega)).bind
    rintro right last ⟨used', rest, tree', rfl, derives', reads', there⟩
    apply wp_pure.mpr
    refine ⟨used ++ List.replicate n .amp ++ .semi :: used', rest, _, ?_,
      .list n derives derives', .list reads reads', there⟩
    simp
  · intro last _ there
    apply wp_pure.mpr
    refine ⟨used ++ List.replicate n .amp, rest, _, ?_, .line n derives, reads,
      there⟩
    rw [List.append_assoc]

theorem parsepipe_sound (nulFree : 0 ∉ text) (sound : Sound text fuel)
    (here : At text s tokens) (enough : 4 * tokens.length + 3 ≤ fuel + 1) :
    wp (parsepipe text (fuel + 1)) (Parsed text .pipe tokens) IsPanic s := by
  unfold parsepipe
  apply (sound.exec here (by omega)).bind
  rintro cmd middle ⟨used, rest, tree, rfl, derives, reads, there⟩
  rw [List.length_append] at enough
  apply peek_cases nulFree there (by rfl)
  · rintro middle token rest rfl found there
    obtain rfl := Token.eq_bar found
    rw [List.length_cons] at enough
    apply (gettoken_spec nulFree there).bind
    intro _ next taken
    apply (sound.pipe taken.rest (by omega)).bind
    rintro right last ⟨used', rest, tree', rfl, derives', reads', there⟩
    apply wp_pure.mpr
    refine ⟨used ++ .bar :: used', rest, _, ?_, .pipe derives derives',
      .pipe reads reads', there⟩
    simp
  · intro last _ there
    exact wp_pure.mpr ⟨used, rest, _, rfl, .exec derives, reads, there⟩

theorem parseexec_sound (nulFree : 0 ∉ text) (sound : Sound text fuel)
    (here : At text s tokens) (enough : 4 * tokens.length + 2 ≤ fuel + 1) :
    wp (parseexec text (fuel + 1)) (Parsed text .exec tokens) IsPanic s := by
  unfold parseexec
  apply peek_cases nulFree here (by rfl)
  · intro middle _ _ _ _ there
    exact sound.block there (by omega)
  · intro middle _ there
    have empty : Building text execcmd [] [] :=
      ⟨⟨[], _, rfl, .nil, .empty⟩, by decide⟩
    apply (parseredirs_sound nulFree there (by omega) execcmd).bind
    rintro ret next ⟨redirs, rest, rfl, redirected⟩
    obtain ⟨building, there⟩ := empty.redirected redirected
    rw [List.length_append] at enough
    apply (parseargs_sound nulFree there (by omega) building).imp
    rintro result last ⟨arguments, rest, rfl, short, completed⟩
    rw [List.length_nil, Nat.zero_add] at short
    exact ⟨_, rest, _, (List.append_assoc _ _ _).symm,
      .simple redirs arguments short, completed.reads, completed.there⟩

theorem parseblock_sound (nulFree : 0 ∉ text) (sound : Sound text fuel)
    (here : At text s tokens) (enough : 4 * tokens.length + 1 ≤ fuel + 1) :
    wp (parseblock text (fuel + 1)) (Parsed text .exec tokens) IsPanic s := by
  unfold parseblock
  apply peek_cases nulFree here (by rfl)
  · rintro middle token rest rfl found there
    obtain rfl := Token.eq_left found
    rw [List.length_cons] at enough
    apply (gettoken_spec nulFree there).bind
    intro _ next taken
    apply (sound.line taken.rest (by omega)).bind
    rintro cmd last ⟨used, rest, tree, rfl, derives, reads, there⟩
    rw [List.length_append] at enough
    apply peek_cases nulFree there (by rfl)
    · rintro middle token rest rfl found there
      obtain rfl := Token.eq_right found
      rw [List.length_cons] at enough
      apply (gettoken_spec nulFree there).bind
      intro _ next taken
      apply (parseredirs_sound nulFree taken.rest (by omega) cmd).imp
      rintro result last ⟨redirs, rest, rfl, places, rfl, redirected, there⟩
      refine ⟨.left :: used ++ .right :: redirs.flatMap Redir.tokens, rest, _,
        ?_, .block redirs derives, reads.wrap redirected, there⟩
      simp
    · intro _ _ _
      exact wp_throw.mpr ⟨_, rfl⟩
  · intro _ _ _
    exact wp_throw.mpr ⟨_, rfl⟩

/-- What a function returns was derived from tokens; with enough fuel it stops
with nothing but a panic otherwise. -/
theorem sound (nulFree : 0 ∉ text) : Sound text fuel := by
  induction fuel with
  | zero =>
      constructor <;> intro s tokens _ enough <;>
        exact absurd enough (Nat.not_succ_le_zero _)
  | succ fuel sound =>
      constructor
      · exact parseline_sound nulFree sound
      · exact parsepipe_sound nulFree sound
      · exact parseexec_sound nulFree sound
      · exact parseblock_sound nulFree sound

end Sound

end Xv6.Shell
