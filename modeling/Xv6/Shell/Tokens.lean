import Xv6.Shell.Grammar
import Mathlib.Data.List.TakeWhile

/-!
# The tokens that the parser sees

`gettoken` and `peek` walk through the tokens of the text, and every text has
tokens.
-/

namespace Xv6.Shell

open Lib

/-! ## Lists of tokens -/

theorem isBlank_of_isWordByte {c : UInt8} (word : isWordByte c) :
    isBlank c = false := by
  unfold isWordByte at word
  rw [Bool.and_eq_true, Bool.not_eq_true'] at word
  exact word.1

/-- A token starts with a byte that is not a blank. -/
theorem Token.exists_cons {token : Token} {rest : List UInt8}
    (ends : token.EndsBefore rest) :
    ∃ c bytes, token.spelling = c :: bytes ∧ isBlank c = false := by
  cases token with
  | word bytes =>
      obtain ⟨nonempty, wordBytes, _⟩ := ends
      cases bytes with
      | nil => exact absurd rfl nonempty
      | cons c bytes =>
          exact ⟨c, bytes, rfl,
            isBlank_of_isWordByte (wordBytes c List.mem_cons_self)⟩
  | arrow arrow => cases arrow <;> exact ⟨_, _, rfl, by decide⟩
  | _ => exact ⟨_, _, rfl, by decide⟩

namespace Lexes

variable {text : List UInt8} {tokens : List Token}

theorem dropWhile_isBlank (lexes : Lexes text tokens) :
    Lexes (text.dropWhile isBlank) tokens := by
  induction lexes with
  | nil => exact .nil
  | blank blank _ induction =>
      rw [List.dropWhile_cons_of_pos blank]
      exact induction
  | @token token rest _ ends lexes _ =>
      obtain ⟨c, bytes, spelling, visible⟩ := Token.exists_cons ends
      have start : (token.spelling ++ rest).dropWhile isBlank =
          token.spelling ++ rest := by
        rw [spelling, List.cons_append, List.dropWhile_cons_of_neg]
        rw [visible]
        exact Bool.false_ne_true
      rw [start]
      exact .token ends lexes

/-- Without blanks in front, a text is empty or starts with its first
token. -/
theorem split (lexes : Lexes text tokens)
    (visible : ∀ c ∈ text.head?, isBlank c = false) :
    text = [] ∧ tokens = [] ∨
      ∃ token rest others, tokens = token :: others ∧
        text = token.spelling ++ rest ∧ token.EndsBefore rest ∧
        Lexes rest others := by
  cases lexes with
  | nil => exact .inl ⟨rfl, rfl⟩
  | blank blank _ =>
      have impossible := visible _ rfl
      rw [blank] at impossible
      cases impossible
  | token ends lexes => exact .inr ⟨_, _, _, rfl, rfl, ends, lexes⟩

theorem length_le (lexes : Lexes text tokens) :
    tokens.length ≤ text.length := by
  induction lexes with
  | nil => exact Nat.le_refl 0
  | blank _ _ induction => exact Nat.le_succ_of_le induction
  | token ends _ induction =>
      obtain ⟨c, bytes, spelling, _⟩ := Token.exists_cons ends
      rw [spelling]
      simp only [List.length_cons, List.length_append]
      omega

end Lexes

/-- The token at the start of a text. -/
theorem exists_token {c : UInt8} {text : List UInt8}
    (visible : isBlank c = false) :
    ∃ (token : Token) (rest : List UInt8),
      c :: text = token.spelling ++ rest ∧ token.EndsBefore rest := by
  cases symbol : symbols.contains c with
  | true =>
      have listed : c ∈ symbols := List.contains_iff_mem.mp symbol
      simp only [symbols, List.map_cons, List.map_nil, List.mem_cons,
        List.not_mem_nil, or_false] at listed
      rcases listed with rfl | rfl | rfl | rfl | rfl | rfl | rfl
      · exact ⟨.arrow .less, text, rfl, trivial⟩
      · exact ⟨.bar, text, rfl, trivial⟩
      · cases text with
        | nil => exact ⟨.arrow .great, [], rfl, nofun⟩
        | cons next text =>
            by_cases again : next = '>'.toUInt8
            · rw [again]
              exact ⟨.arrow .append, text, rfl, trivial⟩
            · refine ⟨.arrow .great, next :: text, rfl, ?_⟩
              intro same
              exact again (Option.some.inj same)
      · exact ⟨.amp, text, rfl, trivial⟩
      · exact ⟨.semi, text, rfl, trivial⟩
      · exact ⟨.left, text, rfl, trivial⟩
      · exact ⟨.right, text, rfl, trivial⟩
  | false =>
      have word : isWordByte c := by
        rw [isWordByte, visible, symbol]
        rfl
      refine ⟨.word (c :: text.takeWhile isWordByte),
        text.dropWhile isWordByte, ?_, List.cons_ne_nil _ _, ?_, ?_⟩
      · simp [Token.spelling]
      · intro d member
        rcases List.mem_cons.mp member with rfl | member
        · exact word
        · exact List.mem_takeWhile_imp member
      · intro d first
        have stopped := List.head?_dropWhile_not isWordByte text
        rw [first] at stopped
        simpa using stopped

/-- Every text has tokens. -/
theorem exists_lexes (text : List UInt8) : ∃ tokens, Lexes text tokens := by
  induction length : text.length using Nat.strong_induction_on
    generalizing text with
  | _ n induction =>
      cases text with
      | nil => exact ⟨[], .nil⟩
      | cons c text =>
          cases visible : isBlank c with
          | true =>
              obtain ⟨tokens, lexes⟩ := induction text.length
                (by rw [← length]; exact Nat.lt_succ_self _) text rfl
              exact ⟨tokens, .blank visible lexes⟩
          | false =>
              obtain ⟨token, rest, split, ends⟩ := exists_token visible
              obtain ⟨d, bytes, spelling, _⟩ := Token.exists_cons ends
              have shorter : rest.length < n := by
                rw [← length, split, spelling]
                simp only [List.cons_append, List.length_cons,
                  List.length_append]
                omega
              obtain ⟨tokens, lexes⟩ :=
                induction rest.length shorter rest rfl
              rw [split]
              exact ⟨token :: tokens, .token ends lexes⟩

/-! ## Pointers into the text -/

section Pointers

variable {text : List UInt8} {p : UInt8 → Bool} {s : Nat}

theorem drop_skip : text.drop (skip text p s) = (text.drop s).dropWhile p := by
  have whole := List.takeWhile_append_dropWhile (p := p) (l := text.drop s)
  unfold skip
  calc
    _ = (text.drop s).drop ((text.drop s).takeWhile p).length := by
      rw [List.drop_drop]
    _ = ((text.drop s).takeWhile p ++ (text.drop s).dropWhile p).drop
        ((text.drop s).takeWhile p).length := by rw [whole]
    _ = (text.drop s).dropWhile p := List.drop_left

theorem skip_le (inside : s ≤ text.length) : skip text p s ≤ text.length := by
  have shorter := (List.takeWhile_sublist p (l := text.drop s)).length_le
  rw [List.length_drop] at shorter
  unfold skip
  omega

theorem byteAt_of_drop {c : UInt8} {rest : List UInt8}
    (start : text.drop s = c :: rest) : byteAt text s = c := by
  have first : (text.drop s)[0]? = some c := by rw [start]; rfl
  rw [List.getElem?_drop, Nat.add_zero] at first
  unfold byteAt
  rw [List.getD_eq_getElem?_getD, first]
  rfl

theorem byteAt_of_drop_nil (start : text.drop s = []) : byteAt text s = 0 := by
  have first : (text.drop s)[0]? = none := by rw [start]; rfl
  rw [List.getElem?_drop, Nat.add_zero] at first
  unfold byteAt
  rw [List.getD_eq_getElem?_getD, first]
  rfl

theorem byteAt_add {bytes rest : List UInt8}
    (start : text.drop s = bytes ++ rest) :
    text.drop (s + bytes.length) = rest := by
  rw [← List.drop_drop, start]
  exact List.drop_left

end Pointers

/-- What `gettoken` returns for a token. -/
def Token.code : Token → UInt8
  | .arrow .append => '+'.toUInt8
  | .word _ => 'a'.toUInt8
  | token => token.spelling.headD 0

/-- The token is one of the symbols. -/
def Token.isOneOf (toks : List Char) : Token → Bool
  | .word _ => false
  | token => (toks.map Char.toUInt8).contains (token.spelling.headD 0)

/-- The pointer is in the text, with these tokens in front of it. -/
structure At (text : List UInt8) (s : Nat) (tokens : List Token) : Prop where
  inside : s ≤ text.length
  lexes : Lexes (text.drop s) tokens

/-- The word between two pointers. -/
structure IsWord (text : List UInt8) (q eq : Nat) (word : Word) : Prop where
  inside : eq ≤ text.length
  split : text.drop q = word ++ text.drop eq
  ends : (Token.word word).EndsBefore (text.drop eq)

section Specs

variable {text : List UInt8} {s : Nat} {token : Token} {tokens : List Token}

theorem At.skip (here : At text s tokens) :
    At text (skip text isBlank s) tokens where
  inside := skip_le here.inside
  lexes := by
    rw [drop_skip]
    exact here.lexes.dropWhile_isBlank

/-- Behind the blanks stands the first token. -/
theorem At.split (here : At text s tokens) :
    text.drop (Shell.skip text isBlank s) = [] ∧ tokens = [] ∨
      ∃ (token : Token) (rest : List UInt8) (others : List Token),
        tokens = token :: others ∧
        text.drop (Shell.skip text isBlank s) = token.spelling ++ rest ∧
        token.EndsBefore rest ∧ Lexes rest others := by
  apply here.skip.lexes.split
  intro c first
  rw [drop_skip] at first
  have stopped := List.head?_dropWhile_not isBlank (text.drop s)
  rw [first] at stopped
  simpa using stopped

theorem mem_of_drop {c : UInt8} {rest : List UInt8}
    (start : text.drop s = c :: rest) : c ∈ text := by
  apply List.mem_of_mem_drop (i := s)
  rw [start]
  exact List.mem_cons_self

/-- A word is as long as it can be. -/
theorem takeWhile_word {word : Word} {rest : List UInt8}
    (ends : (Token.word word).EndsBefore rest) :
    (word ++ rest).takeWhile isWordByte = word := by
  obtain ⟨_, wordBytes, stops⟩ := ends
  rw [List.takeWhile_append_of_pos wordBytes]
  cases rest with
  | nil => simp
  | cons c rest =>
      have stop : ¬ isWordByte c = true := by
        rw [stops c rfl]
        exact Bool.false_ne_true
      rw [List.takeWhile_cons_of_neg stop, List.append_nil]

theorem not_mem_symbols {c : UInt8} (word : isWordByte c) : c ∉ symbols := by
  unfold isWordByte at word
  rw [Bool.and_eq_true, Bool.not_eq_true', Bool.not_eq_true'] at word
  intro listed
  rw [List.contains_iff_mem.mpr listed] at word
  cases word.2

/-- The parser looks for symbols only. -/
def Known (toks : List Char) : Bool :=
  toks.all fun tok => symbols.contains tok.toUInt8

/-- A byte of a word is none of the symbols that somebody looks for. -/
theorem contains_eq_false {c : UInt8} {toks : List Char} (word : isWordByte c)
    (known : Known toks) :
    (toks.map Char.toUInt8).contains c = false := by
  rw [← Bool.not_eq_true, List.contains_iff_mem]
  intro listed
  obtain ⟨tok, member, rfl⟩ := List.mem_map.mp listed
  have listed := List.all_eq_true.mp known tok member
  exact not_mem_symbols word (List.contains_iff_mem.mp listed)

theorem classify_spec (nulFree : 0 ∉ text) {rest : List UInt8}
    (start : text.drop s = token.spelling ++ rest)
    (ends : token.EndsBefore rest) :
    classify text s = (token.code, s + token.spelling.length) := by
  cases token with
  | word bytes =>
      obtain ⟨nonempty, wordBytes, stops⟩ := ends
      cases bytes with
      | nil => exact absurd rfl nonempty
      | cons c bytes =>
          have first := byteAt_of_drop start
          have nonzero : c ≠ 0 := fun zero =>
            nulFree (zero ▸ mem_of_drop start)
          have word := wordBytes c List.mem_cons_self
          have length : skip text isWordByte s = s + (c :: bytes).length := by
            unfold skip
            rw [start, Token.spelling,
              takeWhile_word ⟨nonempty, wordBytes, stops⟩]
          have plain : (['|', '(', ')', ';', '&', '<'].map
              Char.toUInt8).contains c = false :=
            contains_eq_false word (by rfl)
          have great : c ≠ '>'.toUInt8 := by
            rintro rfl
            exact not_mem_symbols word (by decide)
          unfold classify
          simp only
          rw [first, length, if_neg nonzero, plain, if_neg great]
          rfl
  | arrow arrow =>
      cases arrow with
      | append =>
          have second : byteAt text (s + 1) = '>'.toUInt8 := by
            have behind : text.drop (s + 1) = '>'.toUInt8 :: rest := by
              rw [← List.drop_drop, start]
              rfl
            exact byteAt_of_drop behind
          unfold classify
          rw [byteAt_of_drop start, second]
          rfl
      | great =>
          have behind : text.drop (s + 1) = rest := by
            rw [← List.drop_drop, start]
            rfl
          have second : byteAt text (s + 1) ≠ '>'.toUInt8 := by
            cases rest with
            | nil =>
                rw [byteAt_of_drop_nil behind]
                decide
            | cons next rest =>
                rw [byteAt_of_drop behind]
                exact fun same => ends (congrArg some same)
          have choice : classify text s =
              if byteAt text (s + 1) = '>'.toUInt8 then ('+'.toUInt8, s + 2)
              else ('>'.toUInt8, s + 1) := by
            unfold classify
            rw [byteAt_of_drop start]
            rfl
          rw [choice, if_neg second]
          rfl
      | less =>
          unfold classify
          rw [byteAt_of_drop start]
          rfl
  | bar | amp | semi | left | right =>
      unfold classify
      rw [byteAt_of_drop start]
      rfl

/-- What `gettoken` does with the next token. -/
structure Taken (text : List UInt8) (token : Token) (tokens : List Token)
    (result : UInt8 × Nat × Nat) (after : Nat) : Prop where
  code : result.1 = token.code
  rest : At text after tokens
  word : ∀ word, token = .word word →
    IsWord text result.2.1 result.2.2 word

theorem gettoken_spec (nulFree : 0 ∉ text)
    (here : At text s (token :: tokens)) {fault : Fault → Prop} :
    wp (gettoken text) (Taken text token tokens) fault s := by
  rcases here.split with
    ⟨_, empty⟩ | ⟨first, rest, others, same, start, ends, lexes⟩
  · cases empty
  · cases same
    have code := classify_spec nulFree start ends
    have behind := byteAt_add start
    have inside :
        skip text isBlank s + token.spelling.length ≤ text.length := by
      have length := congrArg List.length start
      rw [List.length_drop, List.length_append] at length
      have := skip_le (p := isBlank) here.inside
      omega
    have run : (gettoken text).run s =
        .ok (((classify text (skip text isBlank s)).1, skip text isBlank s,
          (classify text (skip text isBlank s)).2),
          skip text isBlank (classify text (skip text isBlank s)).2) := rfl
    rw [code] at run
    apply wp_of_ok run
    refine ⟨rfl, ?_, ?_⟩
    · exact At.skip ⟨inside, by rw [behind]; exact lexes⟩
    · rintro word rfl
      exact ⟨inside, by rw [behind]; exact start, by rw [behind]; exact ends⟩

/-- At the end `gettoken` returns 0. -/
theorem gettoken_end (here : At text s []) {fault : Fault → Prop} :
    wp (gettoken text)
      (fun result after => result.1 = 0 ∧ At text after []) fault s := by
  have ending : text.drop (skip text isBlank s) = [] := by
    rcases here.split with ⟨empty, _⟩ | ⟨_, _, _, same, _⟩
    · exact empty
    · cases same
  have code : classify text (skip text isBlank s) =
      (0, skip text isBlank s) := by
    unfold classify
    rw [byteAt_of_drop_nil ending]
    rfl
  have run : (gettoken text).run s =
      .ok (((classify text (skip text isBlank s)).1, skip text isBlank s,
        (classify text (skip text isBlank s)).2),
        skip text isBlank (classify text (skip text isBlank s)).2) := rfl
  rw [code] at run
  exact wp_of_ok run ⟨rfl, here.skip.skip⟩

theorem Token.contains_first {rest bytes : List UInt8} {c : UInt8}
    {toks : List Char} (ends : token.EndsBefore rest)
    (spelling : token.spelling = c :: bytes)
    (known : Known toks) :
    (toks.map Char.toUInt8).contains c = token.isOneOf toks := by
  cases token with
  | word word =>
      obtain ⟨_, wordBytes, _⟩ := ends
      apply contains_eq_false _ known
      apply wordBytes
      rw [show word = c :: bytes from spelling]
      exact List.mem_cons_self
  | _ =>
      have first := congrArg (List.headD · 0) spelling
      rw [show c = _ from first.symm]
      rfl

/-- `peek` finds out whether the next token is one of the symbols. -/
theorem peek_spec (nulFree : 0 ∉ text) (here : At text s tokens)
    {toks : List Char} (known : Known toks)
    {fault : Fault → Prop} :
    wp (peek text toks)
      (fun found after => found = tokens.head?.any (Token.isOneOf toks) ∧
        At text after tokens ∧ (after = text.length ↔ tokens = []))
      fault s := by
  have run : (peek text toks).run s =
      .ok (byteAt text (skip text isBlank s) != 0 &&
        (toks.map Char.toUInt8).contains (byteAt text (skip text isBlank s)),
        skip text isBlank s) := rfl
  apply wp_of_ok run
  refine ⟨?_, here.skip, ?_⟩
  · rcases here.split with
      ⟨ending, rfl⟩ | ⟨token, rest, others, rfl, start, ends, _⟩
    · rw [byteAt_of_drop_nil ending]
      rfl
    · obtain ⟨c, bytes, spelling, _⟩ := Token.exists_cons ends
      rw [spelling] at start
      have nonzero : c ≠ 0 := fun zero => nulFree (zero ▸ mem_of_drop start)
      rw [byteAt_of_drop start, bne_iff_ne.mpr nonzero, Bool.true_and]
      exact Token.contains_first ends spelling known
  · constructor
    · intro last
      rcases here.split with ⟨_, empty⟩ | ⟨token, rest, _, _, start, ends, _⟩
      · exact empty
      · obtain ⟨c, bytes, spelling, _⟩ := Token.exists_cons ends
        rw [last, List.drop_length, spelling] at start
        cases start
    · rintro rfl
      rcases here.split with ⟨ending, _⟩ | ⟨_, _, _, same, _⟩
      · exact Nat.le_antisymm here.skip.inside (List.drop_eq_nil_iff.mp ending)
      · cases same

/-- A branch on `peek`. -/
theorem peek_cases {α : Type} (nulFree : 0 ∉ text) (here : At text s tokens)
    {toks : List Char} (known : Known toks)
    {yes no : Code α} {post : α → Nat → Prop} {fault : Fault → Prop}
    (found : ∀ after token rest, tokens = token :: rest →
      token.isOneOf toks → At text after tokens → wp yes post fault after)
    (missing : ∀ after, (∀ token ∈ tokens.head?, token.isOneOf toks = false) →
      At text after tokens → wp no post fault after) :
    wp (do if ← peek text toks then yes else no) post fault s := by
  apply (peek_spec nulFree here known).bind
  rintro value after ⟨rfl, there, _⟩
  cases tokens with
  | nil => exact missing after nofun there
  | cons token rest =>
      cases one : token.isOneOf toks with
      | true =>
          simp only [List.head?_cons, Option.any_some, one, if_true]
          exact found after token rest rfl one there
      | false =>
          simp only [List.head?_cons, Option.any_some, one,
            Bool.false_eq_true, if_false]
          apply missing after _ there
          intro first same
          cases same
          exact one

end Specs

end Xv6.Shell
