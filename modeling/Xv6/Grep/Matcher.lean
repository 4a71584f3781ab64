import Mathlib.Computability.Language

/-!
# The matcher of `user/grep.c`

A C string is the list of the bytes before its NUL.  `matchhere` and
`matchstar` call each other; a pattern gets shorter with every byte that
`matchhere` reads, and `matchstar` keeps the pattern and shortens the text.

Under the declarative reading a pattern is a sequence of items, and what it
matches is a language.
-/

namespace Xv6.Grep

def caret : UInt8 := '^'.toUInt8

def star : UInt8 := '*'.toUInt8

def dollar : UInt8 := '$'.toUInt8

def dot : UInt8 := '.'.toUInt8

mutual

/-- `matchhere`. -/
def matchhere : List UInt8 → List UInt8 → Bool
  | [], _ => true
  | c :: re, text =>
      if re.head? = some star then matchstar c re.tail text
      else if c = dollar ∧ re = [] then text = []
      else
        match text with
        | t :: text => if c = dot ∨ c = t then matchhere re text else false
        | [] => false
  termination_by re text => (re.length, text.length, 0)
  decreasing_by
    · exact .left _ _ (by rw [List.length_tail, List.length_cons]; omega)
    · exact .left _ _ (Nat.lt_succ_self _)

/-- `matchstar`. -/
def matchstar (c : UInt8) (re text : List UInt8) : Bool :=
  if matchhere re text then true
  else
    match text with
    | t :: text => if t = c ∨ c = dot then matchstar c re text else false
    | [] => false
  termination_by (re.length, text.length, 1)
  decreasing_by
    · exact .right _ (.right _ Nat.one_pos)
    · exact .right _ (.left _ _ (Nat.lt_succ_self _))

end

/-- The loop of `match`. -/
def matchAnywhere (re : List UInt8) : List UInt8 → Bool
  | [] => matchhere re []
  | t :: text => matchhere re (t :: text) || matchAnywhere re text

/-- `match`. -/
def matchText (re text : List UInt8) : Bool :=
  if re.head? = some caret then matchhere re.tail text
  else matchAnywhere re text

/-! ## The declarative reading -/

/-- A part of a pattern. -/
inductive Item where
  | once (c : UInt8)
  | many (c : UInt8)

/-- A pattern behind a possible `^`, and whether a `$` ends it. -/
structure Items where
  items : List Item
  toEnd : Bool

/-- A byte followed by a star is repeated, whatever the byte is.  Only then
may the last byte be a `$`. -/
def read : List UInt8 → Items
  | [] => ⟨[], false⟩
  | [c] => if c = dollar then ⟨[], true⟩ else ⟨[.once c], false⟩
  | c :: b :: re =>
      if b = star then ⟨.many c :: (read re).items, (read re).toEnd⟩
      else ⟨.once c :: (read (b :: re)).items, (read (b :: re)).toEnd⟩

/-- The texts of one byte that a byte of a pattern stands for. -/
def single (c : UInt8) : Language UInt8 :=
  { text | ∃ t, text = [t] ∧ (c = dot ∨ c = t) }

open Computability in
/-- The texts that an item stands for. -/
def Item.language : Item → Language UInt8
  | .once c => single c
  | .many c => (single c)∗

/-- The texts that a sequence of items stands for. -/
def language (items : List Item) : Language UInt8 :=
  (items.map Item.language).prod

/-- A substring that matches. -/
def Occurs (items : Items) (anchored : Bool) (text : List UInt8) : Prop :=
  ∃ before inside behind, text = before ++ (inside ++ behind) ∧
    inside ∈ language items.items ∧ (anchored = true → before = []) ∧
    (items.toEnd = true → behind = [])

/-- Some substring of the text matches the pattern. -/
def Matches (re text : List UInt8) : Prop :=
  if re.head? = some caret then Occurs (read re.tail) true text
  else Occurs (read re) false text

/-! ## The matcher decides it -/

theorem mem_single_append {c : UInt8} {rest : Language UInt8}
    {text : List UInt8} :
    text ∈ single c * rest ↔
      ∃ t tail, text = t :: tail ∧ (c = dot ∨ c = t) ∧ tail ∈ rest := by
  rw [Language.mem_mul]
  constructor
  · rintro ⟨_, ⟨t, rfl, accepted⟩, tail, member, rfl⟩
    exact ⟨t, tail, rfl, accepted, member⟩
  · rintro ⟨t, tail, rfl, accepted, member⟩
    exact ⟨[t], ⟨t, rfl, accepted⟩, tail, member, rfl⟩

open Computability in
theorem mem_kstar_single {c : UInt8} {text : List UInt8} :
    text ∈ (single c)∗ ↔ ∀ t ∈ text, c = dot ∨ c = t := by
  rw [Language.mem_kstar]
  constructor
  · rintro ⟨parts, rfl, each⟩ t member
    obtain ⟨part, listed, inside⟩ := List.mem_flatten.mp member
    obtain ⟨t', rfl, accepted⟩ := each part listed
    rw [List.mem_singleton.mp inside]
    exact accepted
  · intro all
    refine ⟨text.map fun t => [t], ?_, ?_⟩
    · rw [← List.flatMap_def, List.flatMap_singleton']
    · intro part listed
      obtain ⟨t, member, rfl⟩ := List.mem_map.mp listed
      exact ⟨t, rfl, all t member⟩

/-- The loop of `matchstar` tries every number of copies. -/
theorem matchstar_iff {c : UInt8} {re : List UInt8} (text : List UInt8) :
    matchstar c re text = true ↔
      ∃ copies rest, text = copies ++ rest ∧
        (∀ t ∈ copies, c = dot ∨ c = t) ∧ matchhere re rest = true := by
  induction text with
  | nil =>
      rw [matchstar]
      constructor
      · intro found
        refine ⟨[], [], rfl, nofun, ?_⟩
        split at found
        · assumption
        · cases found
      · rintro ⟨copies, rest, empty, _, here⟩
        obtain ⟨rfl, rfl⟩ := List.append_eq_nil_iff.mp empty.symm
        rw [if_pos here]
  | cons t text ih =>
      rw [matchstar]
      constructor
      · intro found
        split at found
        case isTrue here => exact ⟨[], t :: text, rfl, nofun, here⟩
        case isFalse =>
            split at found
            case isTrue accepted =>
                obtain ⟨copies, rest, rfl, all, here⟩ := ih.mp found
                refine ⟨t :: copies, rest, rfl, ?_, here⟩
                exact List.forall_mem_cons.mpr
                  ⟨accepted.symm.imp id Eq.symm, all⟩
            case isFalse => cases found
      · rintro ⟨copies, rest, cut, all, here⟩
        split
        case isTrue => rfl
        case isFalse missing =>
            cases copies with
            | nil =>
                rw [List.nil_append] at cut
                rw [cut] at missing
                exact (missing here).elim
            | cons first copies =>
                obtain ⟨rfl, rfl⟩ := List.cons.inj cut
                obtain ⟨accepted, all⟩ := List.forall_mem_cons.mp all
                rw [if_pos (accepted.symm.imp Eq.symm id)]
                exact ih.mpr ⟨copies, rest, rfl, all, here⟩

/-- What `matchhere` finds at the start of the text. -/
def Starts (items : Items) (text : List UInt8) : Prop :=
  ∃ inside behind, text = inside ++ behind ∧
    inside ∈ language items.items ∧ (items.toEnd = true → behind = [])

theorem starts_nil {toEnd : Bool} {text : List UInt8} :
    Starts ⟨[], toEnd⟩ text ↔ (toEnd = true → text = []) := by
  unfold Starts language
  constructor
  · rintro ⟨_, behind, rfl, rfl, last⟩
    exact last
  · intro last
    exact ⟨[], text, rfl, rfl, last⟩

theorem starts_once {c : UInt8} {items : List Item} {toEnd : Bool}
    {text : List UInt8} :
    Starts ⟨.once c :: items, toEnd⟩ text ↔
      ∃ t rest, text = t :: rest ∧ (c = dot ∨ c = t) ∧
        Starts ⟨items, toEnd⟩ rest := by
  unfold Starts language
  rw [List.map_cons, List.prod_cons]
  constructor
  · rintro ⟨_, behind, rfl, member, last⟩
    obtain ⟨t, tail, rfl, accepted, member⟩ := mem_single_append.mp member
    exact ⟨t, tail ++ behind, rfl, accepted, tail, behind, rfl, member, last⟩
  · rintro ⟨t, _, rfl, accepted, tail, behind, rfl, member, last⟩
    exact ⟨t :: tail, behind, rfl,
      mem_single_append.mpr ⟨t, tail, rfl, accepted, member⟩, last⟩

theorem starts_many {c : UInt8} {items : List Item} {toEnd : Bool}
    {text : List UInt8} :
    Starts ⟨.many c :: items, toEnd⟩ text ↔
      ∃ copies rest, text = copies ++ rest ∧
        (∀ t ∈ copies, c = dot ∨ c = t) ∧ Starts ⟨items, toEnd⟩ rest := by
  unfold Starts language
  rw [List.map_cons, List.prod_cons]
  constructor
  · rintro ⟨_, behind, rfl, member, last⟩
    obtain ⟨copies, many, tail, inside, rfl⟩ := Language.mem_mul.mp member
    exact ⟨copies, tail ++ behind, List.append_assoc _ _ _,
      mem_kstar_single.mp many, tail, behind, rfl, inside, last⟩
  · rintro ⟨copies, _, rfl, many, tail, behind, rfl, member, last⟩
    exact ⟨copies ++ tail, behind, (List.append_assoc _ _ _).symm,
      Language.append_mem_mul (mem_kstar_single.mpr many) member, last⟩

theorem matchhere_nil (text : List UInt8) : matchhere [] text = true := by
  rw [matchhere.eq_def]

/-- A byte that no star follows and that is not the last `$`. -/
theorem matchhere_once {c : UInt8} {re : List UInt8}
    (plain : re.head? ≠ some star) (byte : ¬ (c = dollar ∧ re = []))
    (text : List UInt8) :
    matchhere (c :: re) text = true ↔
      ∃ t rest, text = t :: rest ∧ (c = dot ∨ c = t) ∧
        matchhere re rest = true := by
  rw [matchhere.eq_def]
  dsimp only
  rw [if_neg plain, if_neg byte]
  cases text with
  | nil => exact ⟨nofun, nofun⟩
  | cons t text =>
      dsimp only
      split
      case isTrue accepted =>
          constructor
          · exact fun found => ⟨t, text, rfl, accepted, found⟩
          · rintro ⟨_, _, same, _, found⟩
            obtain ⟨rfl, rfl⟩ := List.cons.inj same
            exact found
      case isFalse refused =>
          constructor
          · exact nofun
          · rintro ⟨_, _, same, accepted, _⟩
            obtain ⟨rfl, rfl⟩ := List.cons.inj same
            exact (refused accepted).elim

theorem matchhere_iff (re text : List UInt8) :
    matchhere re text = true ↔ Starts (read re) text := by
  induction re using read.induct generalizing text with
  | case1 =>
      rw [matchhere_nil, read, starts_nil]
      exact ⟨fun _ => nofun, fun _ => rfl⟩
  | case2 =>
      rw [matchhere.eq_def, read, if_pos rfl, starts_nil]
      dsimp only
      rw [if_neg nofun, if_pos ⟨rfl, rfl⟩, decide_eq_true_iff]
      exact ⟨fun empty _ => empty, fun last => last rfl⟩
  | case3 c plain =>
      have alone : ([] : List UInt8).head? ≠ some star := nofun
      have byte : ¬ (c = dollar ∧ ([] : List UInt8) = []) :=
        fun wrong => plain wrong.1
      rw [read, if_neg plain, matchhere_once alone byte, starts_once]
      constructor
      · rintro ⟨t, rest, same, accepted, _⟩
        exact ⟨t, rest, same, accepted, starts_nil.mpr nofun⟩
      · rintro ⟨t, rest, same, accepted, _⟩
        exact ⟨t, rest, same, accepted, matchhere_nil rest⟩
  | case4 c re ih =>
      rw [matchhere.eq_def, read, if_pos rfl, starts_many]
      dsimp only
      rw [List.head?_cons, if_pos rfl, List.tail_cons, matchstar_iff]
      simp only [ih]
  | case5 c b re plain ih =>
      have other : (b :: re).head? ≠ some star := by
        rw [List.head?_cons]
        exact fun same => plain (Option.some.inj same)
      have byte : ¬ (c = dollar ∧ b :: re = []) := fun wrong => by
        cases wrong.2
      rw [read, if_neg plain, matchhere_once other byte, starts_once]
      simp only [ih]

theorem matchAnywhere_iff (re text : List UInt8) :
    matchAnywhere re text = true ↔
      ∃ before rest, text = before ++ rest ∧ matchhere re rest = true := by
  induction text with
  | nil =>
      unfold matchAnywhere
      constructor
      · exact fun found => ⟨[], [], rfl, found⟩
      · rintro ⟨before, rest, empty, found⟩
        obtain ⟨rfl, rfl⟩ := List.append_eq_nil_iff.mp empty.symm
        exact found
  | cons t text ih =>
      unfold matchAnywhere
      rw [Bool.or_eq_true, ih]
      constructor
      · rintro (here | ⟨before, rest, rfl, found⟩)
        · exact ⟨[], t :: text, rfl, here⟩
        · exact ⟨t :: before, rest, rfl, found⟩
      · rintro ⟨before, rest, cut, found⟩
        cases before with
        | nil =>
            rw [List.nil_append] at cut
            rw [cut]
            exact .inl found
        | cons first before =>
            obtain ⟨rfl, rfl⟩ := List.cons.inj cut
            exact .inr ⟨before, rest, rfl, found⟩

/-- `match` returns 1 exactly if some substring of the text matches the
pattern. -/
theorem matchText_iff_matches (re text : List UInt8) :
    matchText re text = true ↔ Matches re text := by
  unfold matchText Matches Occurs
  split
  case isTrue =>
      rw [matchhere_iff]
      constructor
      · rintro ⟨inside, behind, rfl, member, last⟩
        exact ⟨[], inside, behind, rfl, member, fun _ => rfl, last⟩
      · rintro ⟨before, inside, behind, rfl, member, first, last⟩
        rw [first rfl, List.nil_append]
        exact ⟨inside, behind, rfl, member, last⟩
  case isFalse =>
      rw [matchAnywhere_iff]
      simp only [matchhere_iff]
      constructor
      · rintro ⟨before, _, rfl, inside, behind, rfl, member, last⟩
        exact ⟨before, inside, behind, rfl, member, nofun, last⟩
      · rintro ⟨before, inside, behind, rfl, member, _, last⟩
        exact ⟨before, _, rfl, inside, behind, rfl, member, last⟩

end Xv6.Grep
