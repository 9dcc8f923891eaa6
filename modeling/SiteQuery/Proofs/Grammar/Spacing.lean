import SiteQuery.Proofs.Grammar.Matching

/-!
Matches with blanks between their parts.

A part with an optional end may take blanks that follow it. `Expression.Reaches` therefore tells where a match
ends up to blanks, which is all that the next part sees of it.
-/

namespace SiteQuery.Grammar

variable {Rule : Type}

namespace Expression

def Matches (call : Rule → List Char → Match Rule) (expression : Expression Rule) (input : List Char)
    (trees : List (SyntaxTree Rule)) (rest : List Char) : Prop :=
  expression.match? call input = some (trees, rest)

def Refuses (call : Rule → List Char → Match Rule) (expression : Expression Rule) (input : List Char) : Prop :=
  expression.match? call input = none

section Parts

variable {call : Rule → List Char → Match Rule} {first second item : Expression Rule}
  {input middle rest : List Char} {trees others : List (SyntaxTree Rule)}

theorem Matches.unique {last : List Char} (isMatch : item.Matches call input trees rest)
    (other : item.Matches call input others last) : trees = others ∧ rest = last :=
  Prod.mk.inj (Option.some.inj (isMatch.symm.trans other))

theorem Refuses.of_not_matches (none : ∀ trees rest, ¬ item.Matches call input trees rest) : item.Refuses call input := by
  cases found : item.match? call input with
  | none => exact found
  | some result => exact absurd found (none result.1 result.2)

theorem Refuses.not_matches (refused : item.Refuses call input) : ¬ item.Matches call input trees rest := by
  intro isMatch
  cases refused.symm.trans isMatch

theorem Matches.both (isFirst : first.Matches call input trees middle)
    (isSecond : second.Matches call middle others rest) :
    (Expression.both first second).Matches call input (trees ++ others) rest :=
  Match.next_eq_some.mpr ⟨trees, middle, others, isFirst, isSecond, rfl⟩

theorem Matches.left (isFirst : first.Matches call input trees rest) :
    (Expression.either first second).Matches call input trees rest :=
  Option.or_eq_some_iff.mpr (.inl isFirst)

theorem Matches.right (refused : first.Refuses call input) (isSecond : second.Matches call input trees rest) :
    (Expression.either first second).Matches call input trees rest :=
  Option.or_eq_some_iff.mpr (.inr ⟨refused, isSecond⟩)

theorem Matches.word (text rest : List Char) : (Expression.word text : Expression Rule).Matches call (text ++ rest) [] rest := by
  have starts : text.isPrefixOf (text ++ rest) = true := List.isPrefixOf_iff_prefix.mpr (List.prefix_append _ _)
  simp [Matches, match?_word, starts]

theorem Matches.one {accepts : Char → Bool} {c : Char} (accepted : accepts c = true) :
    (Expression.one accepts : Expression Rule).Matches call (c :: rest) [] rest := by
  simp [Matches, match?_one_cons, accepted]

theorem Matches.absent (refused : item.Refuses call input) :
    (Expression.absent item).Matches call input [] input := by
  simp only [Refuses] at refused
  simp [Matches, match?_absent, refused]

theorem Refuses.both_left (refused : first.Refuses call input) : (Expression.both first second).Refuses call input := by
  simp only [Refuses] at refused
  simp [Refuses, match?_both, refused, Match.next]

theorem Refuses.both_right (isFirst : first.Matches call input trees middle)
    (refused : second.Refuses call middle) : (Expression.both first second).Refuses call input := by
  simp only [Matches, Refuses] at isFirst refused
  simp [Refuses, match?_both, isFirst, Match.next, refused]

theorem Refuses.either (isFirst : first.Refuses call input) (isSecond : second.Refuses call input) :
    (Expression.either first second).Refuses call input := by
  simp only [Refuses] at isFirst isSecond
  simp [Refuses, match?_either, isFirst, isSecond]

theorem Refuses.word {text : List Char} (differs : ¬ text <+: input) :
    (Expression.word text : Expression Rule).Refuses call input := by
  rw [← List.isPrefixOf_iff_prefix, Bool.not_eq_true] at differs
  simp [Refuses, match?_word, differs]

theorem Refuses.word_head {d : Char} {text : List Char} (differs : ∀ c ∈ input.head?, c ≠ d) :
    (Expression.word (d :: text) : Expression Rule).Refuses call input := by
  refine .word fun isPrefix => ?_
  obtain ⟨others, rfl⟩ := isPrefix
  exact differs d rfl rfl

theorem Refuses.one {accepts : Char → Bool} (differs : ∀ c ∈ input.head?, accepts c = false) :
    (Expression.one accepts : Expression Rule).Refuses call input := by
  cases input with
  | nil => rfl
  | cons c others => simp [Refuses, match?_one_cons, differs c rfl]

theorem Refuses.absent (isItem : item.Matches call input trees rest) :
    (Expression.absent item).Refuses call input := by
  simp only [Matches] at isItem
  simp [Refuses, match?_absent, isItem]

theorem Refuses.absent_both (refused : second.Refuses call input) :
    (Expression.both (.absent first) second).Refuses call input := by
  simp only [Refuses, match?_both, match?_absent] at refused ⊢
  cases (first.match? call input).isNone with
  | true => simp [Match.next, refused]
  | false => rfl

theorem Matches.many_nil (refused : item.Refuses call input) : (Expression.many item).Matches call input [] input := by
  simp only [Matches, match?_many]
  rw [repeatedMatch, refused]

theorem Matches.many_cons (isFirst : item.Matches call input trees middle) (shorter : middle.length < input.length)
    (more : (Expression.many item).Matches call middle others rest) :
    (Expression.many item).Matches call input (trees ++ others) rest := by
  simp only [Matches, match?_many] at more ⊢
  rw [repeatedMatch, isFirst]
  simp only [shorter, if_true, more, Option.map_some]

/-- A run of single characters is taken as far as it goes. -/
theorem Matches.many_one {accepts : Char → Bool} {text : List Char} (accepted : ∀ c ∈ text, accepts c = true)
    (stops : ∀ c ∈ rest.head?, accepts c = false) :
    (Expression.many (.one accepts) : Expression Rule).Matches call (text ++ rest) [] rest := by
  induction text with
  | nil => exact .many_nil (.one stops)
  | cons c text ih =>
    have first : (Expression.one accepts : Expression Rule).Matches call (c :: (text ++ rest)) [] (text ++ rest) :=
      .one (accepted c List.mem_cons_self)
    exact first.many_cons (Nat.lt_succ_self _) (ih fun d member => accepted d (List.mem_cons_of_mem _ member))

end Parts

/-- What is left of a text after blanks. -/
def after (call : Rule → List Char → Match Rule) (blank : Expression Rule) (input : List Char) : List Char :=
  ((blank.match? call input).map (·.2)).getD input

/-- Blanks always match, leave nothing, and are taken as far as they go. -/
structure IsBlank (call : Rule → List Char → Match Rule) (blank : Expression Rule) : Prop where
  matches_after : ∀ input, blank.Matches call input [] (blank.after call input)
  after_after : ∀ input, blank.after call (blank.after call input) = blank.after call input
  suffix : ∀ input, blank.after call input <:+ input

/-- The match of the expression ends where `rest` begins, up to blanks. -/
def Reaches (call : Rule → List Char → Match Rule) (expression blank : Expression Rule) (input : List Char)
    (trees : List (SyntaxTree Rule)) (rest : List Char) : Prop :=
  ∃ last, expression.Matches call input trees last ∧ blank.after call last = blank.after call rest

section Spaced

variable {call : Rule → List Char → Match Rule} {blank item first second : Expression Rule}
  {input middle rest last : List Char} {trees others : List (SyntaxTree Rule)}

theorem Matches.reaches (isMatch : item.Matches call input trees rest) : item.Reaches call blank input trees rest :=
  ⟨rest, isMatch, rfl⟩

theorem Reaches.congr (reaches : item.Reaches call blank input trees rest)
    (same : blank.after call rest = blank.after call last) : item.Reaches call blank input trees last := by
  obtain ⟨stop, isMatch, atStop⟩ := reaches
  exact ⟨stop, isMatch, atStop.trans same⟩

theorem Reaches.left (isFirst : first.Reaches call blank input trees rest) :
    (Expression.either first second).Reaches call blank input trees rest := by
  obtain ⟨stop, isMatch, atStop⟩ := isFirst
  exact ⟨stop, isMatch.left, atStop⟩

theorem Reaches.right (refused : first.Refuses call input) (isSecond : second.Reaches call blank input trees rest) :
    (Expression.either first second).Reaches call blank input trees rest := by
  obtain ⟨stop, isMatch, atStop⟩ := isSecond
  exact ⟨stop, isMatch.right refused, atStop⟩

theorem Reaches.option (reaches : item.Reaches call blank input trees rest) :
    item.option.Reaches call blank input trees rest := reaches.left

theorem Reaches.option_none (refused : item.Refuses call input) : item.option.Reaches call blank input [] input :=
  Reaches.right refused (Matches.reaches rfl)

theorem matches_blank_of_same (isBlank : IsBlank call blank) (same : blank.after call input = blank.after call middle) :
    blank.Matches call input [] (blank.after call middle) := by
  have isMatch := isBlank.matches_after input
  rwa [same] at isMatch

theorem Reaches.both_blank (isBlank : IsBlank call blank) (isFirst : first.Reaches call blank input trees middle)
    (isSecond : second.Reaches call blank (blank.after call middle) others rest) :
    (Expression.both first (.both blank second)).Reaches call blank input (trees ++ others) rest := by
  obtain ⟨stop, isMatch, atStop⟩ := isFirst
  obtain ⟨last, isLast, atLast⟩ := isSecond
  have afterBlank := (matches_blank_of_same isBlank atStop).both isLast
  exact ⟨last, isMatch.both afterBlank, atLast⟩

theorem Reaches.spaced_cons (isBlank : IsBlank call blank) {parts : List (Expression Rule)}
    (isFirst : first.Reaches call blank input trees middle)
    (isRest : (spaced blank (second :: parts)).Reaches call blank (blank.after call middle) others rest) :
    (spaced blank (first :: second :: parts)).Reaches call blank input (trees ++ others) rest :=
  isFirst.both_blank isBlank isRest

theorem Refuses.spaced_head {parts : List (Expression Rule)} (refused : first.Refuses call input) :
    (spaced blank (first :: parts)).Refuses call input := by
  cases parts with
  | nil => exact refused
  | cons => exact refused.both_left

theorem Refuses.spaced_cons (isBlank : IsBlank call blank) {parts : List (Expression Rule)}
    (isFirst : first.Reaches call blank input trees middle)
    (refused : (spaced blank (second :: parts)).Refuses call (blank.after call middle)) :
    (spaced blank (first :: second :: parts)).Refuses call input := by
  obtain ⟨stop, isMatch, atStop⟩ := isFirst
  exact .both_right isMatch (.both_right (matches_blank_of_same isBlank atStop) refused)

/-- Items one after another, with blanks before each; there is none after the last. -/
inductive Chain (call : Rule → List Char → Match Rule) (item blank : Expression Rule) :
    List Char → List (SyntaxTree Rule) → List Char → Prop
  | nil {start} (refused : item.Refuses call (blank.after call start)) : Chain call item blank start [] start
  | cons {start between stop parts more} (isFirst : item.Reaches call blank (blank.after call start) parts between)
      (chain : Chain call item blank between more stop) : Chain call item blank start (parts ++ more) stop

/-- Every match of the expression takes something. -/
def IsStrict (call : Rule → List Char → Match Rule) (expression : Expression Rule) : Prop :=
  ∀ input trees rest, expression.Matches call input trees rest → rest.length < input.length

theorem Chain.of_after (chain : Chain call item blank input trees rest) (notEmpty : trees ≠ []) {start : List Char}
    (same : blank.after call start = blank.after call input) : Chain call item blank start trees rest := by
  cases chain with
  | nil => exact absurd rfl notEmpty
  | cons isFirst chain => exact .cons (same ▸ isFirst) chain

theorem Chain.many (isBlank : IsBlank call blank)
    (strict : item.IsStrict call) (chain : Chain call item blank input trees rest) {start : List Char}
    (same : blank.after call start = blank.after call input) :
    (Expression.many (.both blank item)).Reaches call blank start trees rest := by
  induction chain generalizing start with
  | nil refused =>
    refine ⟨start, .many_nil (.both_right (matches_blank_of_same isBlank same) refused), same⟩
  | @cons first between stop parts more isFirst chain ih =>
    obtain ⟨here, isMatch, atHere⟩ := isFirst
    obtain ⟨last, isLast, atLast⟩ := ih atHere
    have afterBlank : (Expression.both blank item).Matches call start ([] ++ parts) here :=
      (matches_blank_of_same isBlank same).both isMatch
    refine ⟨last, .many_cons afterBlank ?_ isLast, atLast⟩
    have less := strict _ _ _ isMatch
    have le := (isBlank.suffix start).length_le
    rw [same] at le
    omega

theorem Chain.manySpaced (isBlank : IsBlank call blank) (strict : item.IsStrict call)
    (chain : Chain call item blank input trees rest) :
    (Expression.manySpaced blank item).Reaches call blank (blank.after call input) trees rest := by
  cases chain with
  | nil refused => exact (Reaches.option_none refused.both_left).congr (isBlank.after_after input)
  | cons isFirst chain =>
    obtain ⟨here, isMatch, atHere⟩ := isFirst
    obtain ⟨last, isLast, atLast⟩ := chain.many isBlank strict atHere
    exact Reaches.option ⟨last, isMatch.both isLast, atLast⟩

theorem Chain.someSpaced (isBlank : IsBlank call blank) (strict : item.IsStrict call)
    (chain : Chain call item blank input trees rest) (notEmpty : trees ≠ []) :
    (Expression.someSpaced blank item).Reaches call blank (blank.after call input) trees rest := by
  cases chain with
  | nil => exact absurd rfl notEmpty
  | cons isFirst chain => exact isFirst.spaced_cons isBlank (chain.manySpaced isBlank strict)

end Spaced

end Expression

end SiteQuery.Grammar
