import SiteQuery.Proofs.Grammar.Continued
import SiteQuery.Proofs.Graphql.Grammatical

/-!
Tokens and blanks before another line.

No token but a block string goes over the end of a line, and a block string that no quotes close is none. So tokens are
steady where a line without quotes follows. Blanks are as long as before if something comes behind them in the text.
-/

namespace SiteQuery.Graphql

open Grammar

variable {others input rest : List Char} {rule : Rule}

/-- The match is the same if more lines follow the text. -/
abbrev SteadyAt (others : List Char) (part : Rule.Part) (input : List Char) : Prop :=
  part.SteadyAt grammar.match? ('\n' :: others) input

abbrev Steady (others : List Char) (part : Rule.Part) : Prop := part.Steady grammar.match? ('\n' :: others)

theorem SteadyAt.call (ofBody : SteadyAt others (Rule.body rule) input) : SteadyAt others (.call rule) input :=
  Grammar.IsRanked.steadyAt_call grammar_isRanked ofBody

theorem Steady.call (ofBody : Steady others (Rule.body rule)) : Steady others (.call rule) :=
  fun input => SteadyAt.call (ofBody input)

section Tokens

theorem steady_nameStart : Steady others (.call .nameStart) := .call (.one rfl)

theorem steady_name : Steady others (.call .name) := .call (steady_nameStart.both (.many (.one rfl)))

theorem steady_boolean : Steady others (.call .boolean) := .call (.either (.word (by decide)) (.word (by decide)))

theorem steady_null : Steady others (.call .null) := .call (.word (by decide))

theorem steady_enumValue : Steady others (.call .enumValue) :=
  .call (.both (.absent (steady_boolean.either steady_null)) steady_name)

theorem steady_integer : Steady others (.call .integer) :=
  .call (.both (.option (.word (by decide))) (.either (.word (by decide)) (.both (.one rfl) (.many (.one rfl)))))

theorem steady_fraction : Steady others (.call .fraction) := .call (.both (.word (by decide)) (.oneOrMore (.one rfl)))

theorem steady_exponent : Steady others (.call .exponent) :=
  .call (.both (.one rfl) (.both (.option (.one rfl)) (.oneOrMore (.one rfl))))

theorem steady_float : Steady others (.call .float) :=
  .call (steady_integer.both (.either (steady_fraction.both steady_exponent) (steady_fraction.either steady_exponent)))

theorem steady_number : Steady others (.call .number) :=
  .call (.both (steady_float.either steady_integer) (.absent steady_nameStart))

theorem steady_hexScalar : Steady others (.call .hexScalar) :=
  .call (.both (.absent (.both (.one rfl) (.one rfl))) (.both (.one rfl) (.both (.one rfl) (.both (.one rfl) (.one rfl)))))

theorem steady_stringCharacter : Steady others (.call .stringCharacter) :=
  .call (.either (.one rfl) (.either (.both (.word (by decide)) (.one (by decide)))
    (.both (.word (by decide)) steady_hexScalar)))

theorem steady_stringContent : Steady others (.call .stringContent) := .call (.many steady_stringCharacter)

end Tokens

section BlockStrings

theorem steady_quotes : Steady others Rule.quotes := .word (by decide)

theorem steady_escapedQuotes : Steady others Rule.escapedQuotes := .word (by decide)

/-- Where there is a character, a line behind the text is too far away. -/
theorem steadyAt_blockStringCharacter (notEmpty : input ≠ []) : SteadyAt others (.call .blockStringCharacter) input := by
  have noQuotes : Steady others (.absent (.either Rule.quotes Rule.escapedQuotes)) :=
    (steady_quotes.either steady_escapedQuotes).absent
  refine SteadyAt.call (.either ((noQuotes input).both fun trees rest isAbsent => ?_) fun _ => steady_escapedQuotes input)
  obtain ⟨_, rfl⟩ := accepts_absent isAbsent
  cases rest with
  | nil => exact absurd rfl notEmpty
  | cons c rest => exact Expression.steadyAt_one_cons

theorem refuses_anyQuotes (noQuote : '"' ∉ input) : Refuses (.either Rule.quotes Rule.escapedQuotes) input := by
  refine .either (.word fun isPrefix => ?_) (.word fun isPrefix => ?_)
  all_goals exact noQuote (isPrefix.subset (by decide))

/-- A text without quotes belongs to a block string to its end. -/
theorem accepts_blockStringContent (noQuote : '"' ∉ input) :
    ∃ trees, Accepts (.many (.call .blockStringCharacter)) input trees [] := by
  induction input with
  | nil =>
    refine ⟨[], .many_nil (refuses_call (.either (.both_right (.absent (refuses_anyQuotes noQuote)) ?_) ?_))⟩
    · exact .one nofun
    · exact .word (by decide)
  | cons c input ih =>
    obtain ⟨trees, more⟩ := ih fun inRest => noQuote (List.mem_cons_of_mem _ inRest)
    have character : Accepts (Rule.body .blockStringCharacter) (c :: input) ([] ++ []) input :=
      .left (.both (.absent (refuses_anyQuotes noQuote)) (.one rfl))
    have first := accepts_call.mpr ⟨_, character, rfl⟩
    exact ⟨_, first.many_cons (Nat.lt_succ_self _) more⟩

/-- What ends at quotes ends there still; what goes to the end of the text goes to the end of the longer one. -/
theorem accepts_blockStringContent_append {trees : List (Grammar.SyntaxTree Rule)} (noQuote : '"' ∉ others)
    (isMatch : Accepts (.many (.call .blockStringCharacter)) input trees rest) :
    (rest ≠ [] → Accepts (.many (.call .blockStringCharacter)) (input ++ '\n' :: others)
        (SyntaxTree.shiftAll ('\n' :: others).length trees) (rest ++ '\n' :: others)) ∧
      (rest = [] → ∃ trees, Accepts (.many (.call .blockStringCharacter)) (input ++ '\n' :: others) trees []) := by
  have strict : (Expression.call Rule.blockStringCharacter).IsStrict grammar.match? := isStrict_of_mayBeEmpty rfl
  refine isMatch.many_rec (motive := fun input trees => (rest ≠ [] → Accepts _ (input ++ '\n' :: others)
    (SyntaxTree.shiftAll ('\n' :: others).length trees) (rest ++ '\n' :: others)) ∧
      (rest = [] → ∃ trees, Accepts _ (input ++ '\n' :: others) trees [])) strict ?nil ?cons
  case nil =>
    refine fun refused => ⟨fun notEmpty => .many_nil ((steadyAt_blockStringCharacter notEmpty).refuses refused), ?_⟩
    rintro rfl
    exact accepts_blockStringContent (by simpa using noQuote)
  case cons =>
    intro place before middle more isFirst _ ih
    have less := strict _ _ _ isFirst
    have notEmpty : place ≠ [] := by
      rintro rfl
      exact absurd less (Nat.not_lt_zero _)
    have steady : SteadyAt others (.call .blockStringCharacter) place := steadyAt_blockStringCharacter notEmpty
    have first := steady.matches isFirst
    have still : (middle ++ '\n' :: others).length < (place ++ '\n' :: others).length := by
      simp only [List.length_append]
      omega
    refine ⟨fun restNotEmpty => ?_, fun restEmpty => ?_⟩
    · rw [SyntaxTree.shiftAll_append]
      exact first.many_cons still (ih.1 restNotEmpty)
    · obtain ⟨trees, toEnd⟩ := ih.2 restEmpty
      exact ⟨_, first.many_cons still toEnd⟩

theorem steady_blockString (noQuote : '"' ∉ others) :
    Steady others (.both (.call .blockStringContent) Rule.quotes) := by
  intro input
  obtain ⟨trees, rest, found⟩ :=
    Expression.exists_repeatedMatch (Expression.match? grammar.match? (.call .blockStringCharacter)) input
  have isMany : Accepts (Rule.body .blockStringContent) input trees rest := found
  obtain ⟨sameEnd, toEnd⟩ := accepts_blockStringContent_append noQuote isMany
  by_cases restEmpty : rest = []
  · obtain ⟨others, still⟩ := toEnd restEmpty
    have nothing : Refuses Rule.quotes [] := .word (by decide)
    subst restEmpty
    exact .of_refuses (.both_right (accepts_call.mpr ⟨_, isMany, rfl⟩) nothing)
      (.both_right (accepts_call.mpr ⟨_, still, rfl⟩) nothing)
  · have content : SteadyAt others (Rule.body .blockStringContent) input := .of_matches isMany (sameEnd restEmpty)
    exact (SteadyAt.call content).both fun _ place _ => steady_quotes place

theorem steady_string (noQuote : '"' ∉ others) : Steady others (.call .string) :=
  .call (.either (steady_quotes.both (steady_blockString noQuote))
    (.both (.word (by decide)) (steady_stringContent.both (.word (by decide)))))

end BlockStrings

section Blanks

variable {tail : List Char}

/-- What is left of a text after blanks. -/
abbrev skipBlanks (input : List Char) : List Char := Rule.blank.after grammar.match? input

theorem skipBlanks_nil : skipBlanks [] = [] := afterBlank_of_solid nofun

theorem skipBlanks_blank {c : Char} (isBlank : Rule.isBlank c = true) : skipBlanks (c :: input) = skipBlanks input :=
  afterBlank_cons isBlank

theorem skipBlanks_solid {c : Char} (notBlank : Rule.isBlank c = false) (notComment : c ≠ '#') :
    skipBlanks (c :: input) = c :: input := by
  refine afterBlank_of_solid fun d isHead => ?_
  cases isHead
  exact ⟨notBlank, notComment⟩

theorem skipBlanks_comment (input : List Char) :
    skipBlanks ('#' :: input) = skipBlanks (input.dropWhile (!Rule.isLineEnd ·)) := by
  have text : Accepts (.many (.one (!Rule.isLineEnd ·))) (input.takeWhile (!Rule.isLineEnd ·) ++
      input.dropWhile (!Rule.isLineEnd ·)) [] (input.dropWhile (!Rule.isLineEnd ·)) := by
    refine .many_one (fun c member => List.all_eq_true.mp List.all_takeWhile c member) fun c isHead => ?_
    have stops := List.head?_dropWhile_not (!Rule.isLineEnd ·) input
    rw [Option.mem_def.mp isHead] at stops
    exact stops
  rw [List.takeWhile_append_dropWhile] at text
  have comment : Accepts Rule.comment ('#' :: input) ([] ++ []) (input.dropWhile (!Rule.isLineEnd ·)) :=
    .both (.one rfl) text
  have first : Accepts (.either (.one Rule.isBlank) Rule.comment) ('#' :: input) [] (input.dropWhile (!Rule.isLineEnd ·)) :=
    comment.right (.one fun c isHead => by cases isHead; rfl)
  have shorter : (input.dropWhile (!Rule.isLineEnd ·)).length < ('#' :: input).length :=
    Nat.lt_succ_of_le (List.dropWhile_suffix _).length_le
  exact afterBlank_eq (first.many_cons shorter (isBlank_blank.matches_after _))

/-- By the character that a text starts with. -/
theorem blanks_rec {motive : List Char → Prop} (nil : motive [])
    (blank : ∀ c rest, Rule.isBlank c = true → motive rest → motive (c :: rest))
    (comment : ∀ rest, motive (rest.dropWhile (!Rule.isLineEnd ·)) → motive ('#' :: rest))
    (solid : ∀ c rest, Rule.isBlank c = false → c ≠ '#' → motive (c :: rest)) (input : List Char) : motive input := by
  induction size : input.length using Nat.strongRecOn generalizing input with
  | ind size ih =>
    subst size
    cases input with
    | nil => exact nil
    | cons c rest =>
      cases isBlank : Rule.isBlank c with
      | true => exact blank c rest isBlank (ih _ (Nat.lt_succ_self _) rest rfl)
      | false =>
        by_cases isComment : c = '#'
        · subst isComment
          have shorter := (List.dropWhile_suffix (!Rule.isLineEnd ·) (l := rest)).length_le
          exact comment rest (ih _ (Nat.lt_succ_of_le shorter) _ rfl)
        · exact solid c rest isBlank isComment

theorem skipBlanks_append (more : skipBlanks input ≠ []) : skipBlanks (input ++ tail) = skipBlanks input ++ tail := by
  induction input using blanks_rec with
  | nil => exact absurd skipBlanks_nil more
  | blank c rest isBlank ih =>
    rw [skipBlanks_blank isBlank] at more ⊢
    rw [List.cons_append, skipBlanks_blank isBlank, ih more]
  | comment rest ih =>
    rw [skipBlanks_comment] at more ⊢
    have lineEnds : (rest.dropWhile (!Rule.isLineEnd ·)).isEmpty = false := by
      rw [List.isEmpty_eq_false_iff]
      intro none
      rw [none] at more
      exact more skipBlanks_nil
    rw [List.cons_append, skipBlanks_comment, List.dropWhile_append, lineEnds]
    exact ih more
  | solid c rest notBlank notComment =>
    rw [List.cons_append, skipBlanks_solid notBlank notComment, skipBlanks_solid notBlank notComment, List.cons_append]

/-- The line end closes a comment that the text ends with. -/
theorem skipBlanks_append_line (none : skipBlanks input = []) : skipBlanks (input ++ '\n' :: others) = skipBlanks others := by
  induction input using blanks_rec with
  | nil => exact skipBlanks_blank rfl
  | blank c rest isBlank ih =>
    rw [skipBlanks_blank isBlank] at none
    rw [List.cons_append, skipBlanks_blank isBlank, ih none]
  | comment rest ih =>
    rw [skipBlanks_comment] at none
    rw [List.cons_append, skipBlanks_comment, List.dropWhile_append]
    split
    · exact skipBlanks_blank rfl
    · exact ih none
  | solid c rest notBlank notComment =>
    rw [skipBlanks_solid notBlank notComment] at none
    cases none

end Blanks

end SiteQuery.Graphql
