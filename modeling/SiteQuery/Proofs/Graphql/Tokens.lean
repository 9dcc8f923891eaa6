import SiteQuery.Graphql.Grammar
import SiteQuery.Proofs.Grammar.Trees

/-!
Blanks, names and keywords in the grammar of documents.
-/

namespace SiteQuery.Grammar.Expression

variable {Rule : Type} {call : Rule → List Char → Match Rule} {item : Expression Rule} {input rest : List Char}
  {trees : List (SyntaxTree Rule)}

theorem IsStrict.of_takes {optional : Rule → Bool}
    (takes : ∀ rule input trees rest, call rule input = some (trees, rest) → Takes (optional rule) input rest)
    (notEmpty : item.mayBeEmpty optional = false) : item.IsStrict call :=
  fun _ _ _ isMatch => (takes_of_match? takes isMatch).2 notEmpty

theorem refuses_of_many (strict : item.IsStrict call) (isMatch : (Expression.many item).Matches call input trees rest) :
    item.Refuses call rest :=
  repeatedMatch_rec (motive := fun _ _ => item.Refuses call rest) (fun stops => stops)
    (fun place trees found notShorter => absurd (strict place trees rest found) notShorter)
    (fun _ _ _ _ _ _ ih => ih) isMatch

theorem exists_repeatedMatch (step : List Char → Match Rule) (input : List Char) :
    ∃ trees last, repeatedMatch step input = some (trees, last) := by
  induction input using repeatedMatch.induct step with
  | case1 input stops =>
    rw [repeatedMatch, stops]
    exact ⟨[], input, rfl⟩
  | case2 input before middle found shorter ih =>
    obtain ⟨trees, last, more⟩ := ih
    rw [repeatedMatch, found]
    simp only [shorter, if_true, more]
    exact ⟨_, _, rfl⟩
  | case3 input before middle found notShorter =>
    rw [repeatedMatch, found]
    simp only [notShorter, if_false]
    exact ⟨_, _, rfl⟩

end SiteQuery.Grammar.Expression

namespace SiteQuery.Graphql

open Grammar

namespace Rule

/-- The rules that may match nothing. -/
def isOptional : Rule → Bool
  | endOfInput | repeatable | blockStringContent | stringContent => true
  | _ => false

end Rule

theorem grammar_isRanked : grammar.IsRanked Rule.isOptional where
  rank_lt rule := by cases rule <;> decide
  takes rule := by cases rule <;> decide
  starts rule := by cases rule <;> decide

theorem grammar_takes (rule : Rule) (input : List Char) (trees : List (Grammar.SyntaxTree Rule)) (rest : List Char)
    (found : grammar.match? rule input = some (trees, rest)) : Takes (Rule.isOptional rule) input rest :=
  Grammar.IsRanked.takes_of_match? grammar_isRanked found

/-- A match in the grammar of documents. -/
abbrev Accepts (part : Rule.Part) (input : List Char) (trees : List (Grammar.SyntaxTree Rule)) (rest : List Char) : Prop :=
  part.Matches grammar.match? input trees rest

/-- A match that ends where `rest` begins, up to blanks. -/
abbrev Reaches (part : Rule.Part) (input : List Char) (trees : List (Grammar.SyntaxTree Rule)) (rest : List Char) : Prop :=
  part.Reaches grammar.match? Rule.blank input trees rest

abbrev Refuses (part : Rule.Part) (input : List Char) : Prop := part.Refuses grammar.match? input

theorem isStrict_of_mayBeEmpty {part : Rule.Part} (notEmpty : part.mayBeEmpty Rule.isOptional = false) :
    part.IsStrict grammar.match? :=
  .of_takes grammar_takes notEmpty

section Calls

variable {rule : Rule} {input rest : List Char} {trees parts : List (Grammar.SyntaxTree Rule)}

theorem accepts_call : Accepts (.call rule) input trees rest ↔
    ∃ parts, Accepts (Rule.body rule) input parts rest ∧ trees = Grammar.leaves (Rule.kind rule) rule input rest parts := by
  simp only [Accepts, Expression.Matches, Expression.match?]
  rw [Grammar.IsRanked.match?_eq grammar_isRanked, Option.map_eq_some_iff]
  constructor
  · rintro ⟨⟨parts, last⟩, isBody, same⟩
    obtain ⟨rfl, rfl⟩ := Prod.mk.inj same
    exact ⟨parts, isBody, rfl⟩
  · rintro ⟨parts, isBody, rfl⟩
    exact ⟨(parts, rest), isBody, rfl⟩

theorem refuses_call (refused : Refuses (Rule.body rule) input) : Refuses (.call rule) input := by
  simp only [Refuses, Expression.Refuses, Expression.match?] at refused ⊢
  rw [Grammar.IsRanked.match?_eq grammar_isRanked]
  exact Option.map_eq_none_iff.mpr refused

theorem accepts_token {text : List Char} (isToken : Rule.kind rule = .token)
    (isBody : Accepts (Rule.body rule) (text ++ rest) parts rest) :
    Accepts (.call rule) (text ++ rest) [.token rule (text.length + rest.length) text] rest := by
  refine accepts_call.mpr ⟨parts, isBody, ?_⟩
  simp [Grammar.leaves, isToken]

theorem reaches_branch (rule : Rule) (isBranch : Rule.kind rule = .branch) (isBody : Reaches (Rule.body rule) input parts rest) :
    ∃ leftAfter, Reaches (.call rule) input [.branch rule input.length leftAfter parts] rest := by
  obtain ⟨last, isMatch, atLast⟩ := isBody
  refine ⟨last.length, last, accepts_call.mpr ⟨parts, isMatch, ?_⟩, atLast⟩
  simp [Grammar.leaves, isBranch]

theorem reaches_spliced (isSpliced : Rule.kind rule = .spliced) (isBody : Reaches (Rule.body rule) input trees rest) :
    Reaches (.call rule) input trees rest := by
  obtain ⟨last, isMatch, atLast⟩ := isBody
  refine ⟨last, accepts_call.mpr ⟨trees, isMatch, ?_⟩, atLast⟩
  simp [Grammar.leaves, isSpliced]

end Calls

theorem reaches_word (text rest : List Char) : Reaches (.word text) (text ++ rest) [] rest :=
  (Expression.Matches.word text rest).reaches

section Blanks

variable {input rest text : List Char}

theorem afterBlank_eq {trees : List (Grammar.SyntaxTree Rule)} (isMatch : Accepts Rule.blank input trees rest) :
    Rule.blank.after grammar.match? input = rest := by
  simp only [Expression.Matches] at isMatch
  simp [Expression.after, isMatch]

theorem isBlank_blank : Rule.blank.IsBlank grammar.match? := by
  have always (input : List Char) : Accepts Rule.blank input [] (Rule.blank.after grammar.match? input) := by
    obtain ⟨trees, last, isMatch⟩ := Expression.exists_repeatedMatch
      (Expression.match? grammar.match? (.either (.one Rule.isBlank) Rule.comment)) input
    have isBlank : Accepts Rule.blank input trees last := isMatch
    obtain rfl := Expression.eq_nil_of_isPlain rfl isBlank
    rwa [afterBlank_eq isBlank]
  refine ⟨always, fun input => ?_, fun input => ?_⟩
  · have strict : (Expression.either (.one Rule.isBlank) Rule.comment).IsStrict grammar.match? :=
      isStrict_of_mayBeEmpty rfl
    have refused := Expression.refuses_of_many strict (always input)
    have again : Accepts Rule.blank (Rule.blank.after grammar.match? input) [] (Rule.blank.after grammar.match? input) := .many_nil refused
    exact afterBlank_eq again
  · exact (Expression.takes_of_match? grammar_takes (always input)).1

/-- No blank and no comment starts here. -/
def Solid (input : List Char) : Prop := ∀ c ∈ input.head?, Rule.isBlank c = false ∧ c ≠ '#'

theorem afterBlank_of_solid (solid : Solid input) : Rule.blank.after grammar.match? input = input := by
  have refused : Refuses (.either (.one Rule.isBlank) Rule.comment) input := by
    refine .either (.one fun c isHead => (solid c isHead).1) (.both_left (.one fun c isHead => ?_))
    simpa using (solid c isHead).2
  have isMatch : Accepts Rule.blank input [] input := .many_nil refused
  exact afterBlank_eq isMatch

theorem afterBlank_cons {c : Char} (isBlank : Rule.isBlank c = true) :
    Rule.blank.after grammar.match? (c :: rest) = Rule.blank.after grammar.match? rest := by
  have first : Accepts (.either (.one Rule.isBlank) Rule.comment) (c :: rest) [] rest := .left (.one isBlank)
  have isMatch : Accepts Rule.blank (c :: rest) ([] ++ []) (Rule.blank.after grammar.match? rest) :=
    .many_cons first (Nat.lt_succ_self _) (isBlank_blank.matches_after rest)
  exact afterBlank_eq isMatch

theorem afterBlank_append (blanks : ∀ c ∈ text, Rule.isBlank c = true) :
    Rule.blank.after grammar.match? (text ++ rest) = Rule.blank.after grammar.match? rest := by
  induction text with
  | nil => rfl
  | cons c text ih =>
    rw [List.cons_append, afterBlank_cons (blanks c List.mem_cons_self)]
    exact ih fun d member => blanks d (List.mem_cons_of_mem _ member)

end Blanks

section Names

variable {input rest text : List Char}

def IsName : List Char → Prop
  | [] => False
  | c :: text => Rule.isNameStart c = true ∧ ∀ d ∈ text, Rule.isNameRest d = true

/-- No name goes on here. -/
def NameEnds (rest : List Char) : Prop := ∀ c ∈ rest.head?, Rule.isNameRest c = false

theorem isDigit_of_isNameStart {c : Char} (start : Rule.isNameStart c = true) : Rule.isDigit c = false := by
  cases isDigit : Rule.isDigit c with
  | false => rfl
  | true =>
    simp only [Rule.isDigit, Bool.and_eq_true, decide_eq_true_eq] at isDigit
    simp only [Rule.isNameStart, Bool.or_eq_true, Bool.and_eq_true, decide_eq_true_eq, beq_iff_eq] at start
    rcases start with (lower | upper) | rfl
    · exact absurd (Char.le_trans lower.1 isDigit.2) (by decide)
    · exact absurd (Char.le_trans upper.1 isDigit.2) (by decide)
    · exact absurd isDigit.2 (by decide)

theorem accepts_name (isName : IsName text) (ends : NameEnds rest) :
    Accepts (.call .name) (text ++ rest) [.token .name (text.length + rest.length) text] rest := by
  cases text with
  | nil => exact isName.elim
  | cons c text =>
    have first : Accepts (.call .nameStart) ([c] ++ (text ++ rest)) [.token .nameStart _ [c]] (text ++ rest) :=
      accepts_token rfl (.one isName.1)
    exact accepts_token rfl (first.both (.many_one isName.2 ends))

theorem reaches_name (isName : IsName text) (ends : NameEnds rest) :
    ∃ left, Reaches (.call .name) (text ++ rest) [.token .name left text] rest :=
  ⟨_, (accepts_name isName ends).reaches⟩

theorem refuses_name (noName : ∀ c ∈ input.head?, Rule.isNameStart c = false) : Refuses (.call .name) input :=
  refuses_call (.both_left (refuses_call (.one noName)))

end Names

end SiteQuery.Graphql
