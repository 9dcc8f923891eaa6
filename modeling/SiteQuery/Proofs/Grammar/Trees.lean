import SiteQuery.Proofs.Grammar.Spacing

/-!
The trees that a match leaves, whatever the text was.
-/

namespace SiteQuery.Grammar.Expression

variable {Rule : Type} {call : Rule → List Char → Match Rule} {blank item first second : Expression Rule}
  {input rest : List Char} {trees : List (SyntaxTree Rule)}

/-- No rule is called. -/
def isPlain : Expression Rule → Bool
  | .empty | .ending | .one _ | .word _ | .absent _ => true
  | .call _ => false
  | .both first second | .either first second => first.isPlain && second.isPlain
  | .many item => item.isPlain

theorem eq_nil_of_repeatedMatch {step : List Char → Match Rule}
    (plain : ∀ input trees rest, step input = some (trees, rest) → trees = [])
    (found : repeatedMatch step input = some (trees, rest)) : trees = [] := by
  refine repeatedMatch_rec (motive := fun _ trees => trees = []) (fun _ => rfl) (fun place trees single _ => ?_)
    (fun place before middle after first _ ih => ?_) found
  · exact plain place trees rest single
  · rw [plain place before middle first, ih]
    rfl

theorem eq_nil_of_isPlain (plain : item.isPlain = true) (isMatch : item.Matches call input trees rest) :
    trees = [] := by
  induction item generalizing input trees rest with
  | empty => exact (Prod.mk.inj (Option.some.inj isMatch)).1.symm
  | ending | word | absent =>
    simp only [Matches, match?, Option.ite_none_right_eq_some] at isMatch
    exact (Prod.mk.inj (Option.some.inj isMatch.2)).1.symm
  | one accepts =>
    cases input with
    | nil => cases isMatch
    | cons c others =>
      simp only [Matches, match?, Option.ite_none_right_eq_some] at isMatch
      exact (Prod.mk.inj (Option.some.inj isMatch.2)).1.symm
  | call rule => cases plain
  | both first second ihFirst ihSecond =>
    obtain ⟨before, middle, others, isFirst, isSecond, rfl⟩ := Match.next_eq_some.mp isMatch
    obtain ⟨plainFirst, plainSecond⟩ := Bool.and_eq_true_iff.mp plain
    rw [ihFirst plainFirst isFirst, ihSecond plainSecond isSecond]
    rfl
  | either first second ihFirst ihSecond =>
    obtain ⟨plainFirst, plainSecond⟩ := Bool.and_eq_true_iff.mp plain
    rcases Option.or_eq_some_iff.mp isMatch with isFirst | ⟨_, isSecond⟩
    · exact ihFirst plainFirst isFirst
    · exact ihSecond plainSecond isSecond
  | many item ih => exact eq_nil_of_repeatedMatch (fun _ _ _ found => ih plain found) isMatch

/-- Some match of the expression leaves these trees. -/
def Yields (call : Rule → List Char → Match Rule) (expression : Expression Rule) (trees : List (SyntaxTree Rule)) : Prop :=
  ∃ input rest, expression.Matches call input trees rest

theorem Matches.yields (isMatch : item.Matches call input trees rest) : item.Yields call trees := ⟨input, rest, isMatch⟩

theorem Yields.of_isPlain (yields : item.Yields call trees) (plain : item.isPlain = true) : trees = [] := by
  obtain ⟨input, rest, isMatch⟩ := yields
  exact eq_nil_of_isPlain plain isMatch

theorem Yields.of_both (yields : (Expression.both first second).Yields call trees) :
    ∃ before after, trees = before ++ after ∧ first.Yields call before ∧ second.Yields call after := by
  obtain ⟨input, rest, isMatch⟩ := yields
  obtain ⟨before, middle, after, isFirst, isSecond, rfl⟩ := Match.next_eq_some.mp isMatch
  exact ⟨before, after, rfl, ⟨input, middle, isFirst⟩, ⟨middle, rest, isSecond⟩⟩

theorem Yields.of_plain_both (yields : (Expression.both first second).Yields call trees) (plain : first.isPlain = true) :
    second.Yields call trees := by
  obtain ⟨before, after, rfl, isFirst, isSecond⟩ := yields.of_both
  rwa [isFirst.of_isPlain plain]

theorem Yields.of_both_plain (yields : (Expression.both first second).Yields call trees) (plain : second.isPlain = true) :
    first.Yields call trees := by
  obtain ⟨before, after, rfl, isFirst, isSecond⟩ := yields.of_both
  rwa [isSecond.of_isPlain plain, List.append_nil]

theorem Yields.of_either (yields : (Expression.either first second).Yields call trees) :
    first.Yields call trees ∨ second.Yields call trees := by
  obtain ⟨input, rest, isMatch⟩ := yields
  rcases Option.or_eq_some_iff.mp isMatch with isFirst | ⟨_, isSecond⟩
  · exact .inl ⟨input, rest, isFirst⟩
  · exact .inr ⟨input, rest, isSecond⟩

theorem Yields.of_option (yields : item.option.Yields call trees) : trees = [] ∨ item.Yields call trees :=
  yields.of_either.symm.imp_left fun isEmpty => isEmpty.of_isPlain rfl

theorem Yields.of_many (yields : (Expression.many item).Yields call trees) :
    ∃ groups : List (List (SyntaxTree Rule)), trees = groups.flatten ∧ ∀ group ∈ groups, item.Yields call group := by
  obtain ⟨input, rest, isMatch⟩ := yields
  refine repeatedMatch_rec (motive := fun _ trees => ∃ groups : List (List (SyntaxTree Rule)), trees = groups.flatten ∧
    ∀ group ∈ groups, item.Yields call group) (fun _ => ⟨[], rfl, List.forall_mem_nil _⟩) (fun place group found _ => ?_)
    (fun place before middle after found _ ih => ?_) isMatch
  · exact ⟨[group], by simp, List.forall_mem_singleton.mpr ⟨place, rest, found⟩⟩
  · obtain ⟨groups, rfl, areItems⟩ := ih
    exact ⟨before :: groups, rfl, List.forall_mem_cons.mpr ⟨⟨place, middle, found⟩, areItems⟩⟩

theorem Yields.of_spaced_cons (isPlain : blank.isPlain = true) {parts : List (Expression Rule)}
    (yields : (spaced blank (first :: second :: parts)).Yields call trees) :
    ∃ before after, trees = before ++ after ∧ first.Yields call before ∧
      (spaced blank (second :: parts)).Yields call after := by
  obtain ⟨before, more, rfl, isFirst, isMore⟩ := yields.of_both
  obtain ⟨blanks, after, rfl, isBlank, isAfter⟩ := isMore.of_both
  rw [isBlank.of_isPlain isPlain]
  exact ⟨before, after, rfl, isFirst, isAfter⟩

/-- Every match of the expression leaves one tree. -/
def IsSingle (call : Rule → List Char → Match Rule) (expression : Expression Rule) : Prop :=
  ∀ trees, expression.Yields call trees → ∃ tree, trees = [tree]

theorem Yields.of_mem_flatten (single : item.IsSingle call) {groups : List (List (SyntaxTree Rule))}
    (areItems : ∀ group ∈ groups, item.Yields call group) : ∀ tree ∈ groups.flatten, item.Yields call [tree] := by
  intro tree member
  obtain ⟨group, inGroups, inGroup⟩ := List.mem_flatten.mp member
  have isItem := areItems group inGroups
  obtain ⟨only, rfl⟩ := single group isItem
  rwa [List.mem_singleton.mp inGroup]

theorem Yields.of_manySpaced (isPlain : blank.isPlain = true) (single : item.IsSingle call)
    (yields : (manySpaced blank item).Yields call trees) : ∀ tree ∈ trees, item.Yields call [tree] := by
  rcases yields.of_option with rfl | isSome
  · simp
  · obtain ⟨before, after, rfl, isFirst, isMany⟩ := isSome.of_both
    obtain ⟨groups, rfl, areSpaced⟩ := isMany.of_many
    obtain ⟨only, rfl⟩ := single before isFirst
    have areItems (group : List (SyntaxTree Rule)) (member : group ∈ groups) : item.Yields call group := by
      obtain ⟨blanks, inner, rfl, isBlank, isItem⟩ := (areSpaced group member).of_both
      rwa [isBlank.of_isPlain isPlain]
    exact List.forall_mem_cons.mpr ⟨isFirst, .of_mem_flatten single areItems⟩

theorem Yields.of_someSpaced (isPlain : blank.isPlain = true) (single : item.IsSingle call)
    (yields : (someSpaced blank item).Yields call trees) : trees ≠ [] ∧ ∀ tree ∈ trees, item.Yields call [tree] := by
  obtain ⟨before, after, rfl, isFirst, isMany⟩ := yields.of_spaced_cons isPlain
  obtain ⟨only, rfl⟩ := single before isFirst
  exact ⟨by simp, List.forall_mem_cons.mpr ⟨isFirst, isMany.of_manySpaced isPlain single⟩⟩

/-- What an expression has to choose from, before it takes anything. -/
def alternatives : Expression Rule → List (Expression Rule)
  | .either first second => first.alternatives ++ second.alternatives
  | item => [item]

theorem Yields.of_alternatives (yields : item.Yields call trees) : ∃ other ∈ item.alternatives, other.Yields call trees := by
  induction item with
  | either first second ihFirst ihSecond =>
    rcases yields.of_either with isFirst | isSecond
    · obtain ⟨other, member, isOther⟩ := ihFirst isFirst
      exact ⟨other, List.mem_append_left _ member, isOther⟩
    · obtain ⟨other, member, isOther⟩ := ihSecond isSecond
      exact ⟨other, List.mem_append_right _ member, isOther⟩
  | _ => exact ⟨_, List.mem_cons_self, yields⟩

/-- The rules whose matches make up those of an expression. -/
def calls : Expression Rule → List Rule
  | .empty | .ending | .one _ | .word _ | .absent _ => []
  | .call rule => [rule]
  | .both first second | .either first second => first.calls ++ second.calls
  | .many item => item.calls

/-- What holds of all that its calls leave holds of all that an expression leaves. -/
theorem Yields.forall_mem {holds : SyntaxTree Rule → Prop}
    (called : ∀ rule ∈ item.calls, ∀ trees, (Expression.call rule).Yields call trees → ∀ tree ∈ trees, holds tree)
    (yields : item.Yields call trees) : ∀ tree ∈ trees, holds tree := by
  induction item generalizing trees with
  | empty | ending | one | word | absent =>
    rw [yields.of_isPlain rfl]
    exact fun tree member => absurd member List.not_mem_nil
  | call rule => exact called rule List.mem_cons_self trees yields
  | both first second ihFirst ihSecond =>
    obtain ⟨before, after, rfl, isFirst, isSecond⟩ := yields.of_both
    have ofFirst := ihFirst (fun rule member => called rule (List.mem_append_left _ member)) isFirst
    exact List.forall_mem_append.mpr
      ⟨ofFirst, ihSecond (fun rule member => called rule (List.mem_append_right _ member)) isSecond⟩
  | either first second ihFirst ihSecond =>
    rcases yields.of_either with isFirst | isSecond
    · exact ihFirst (fun rule member => called rule (List.mem_append_left _ member)) isFirst
    · exact ihSecond (fun rule member => called rule (List.mem_append_right _ member)) isSecond
  | many item ih =>
    obtain ⟨groups, rfl, areItems⟩ := yields.of_many
    intro tree member
    obtain ⟨group, inGroups, inGroup⟩ := List.mem_flatten.mp member
    exact ih called (areItems group inGroups) tree inGroup

end SiteQuery.Grammar.Expression

namespace SiteQuery.Grammar

variable {Rule : Type}

namespace SyntaxTree

/-- Every token of a tree, at any depth, has a text that fits its rule. -/
inductive HasTokens (fits : Rule → List Char → Prop) : SyntaxTree Rule → Prop
  | token {rule left text} (here : fits rule text) : HasTokens fits (.token rule left text)
  | branch {rule left leftAfter parts} (inner : ∀ part ∈ parts, HasTokens fits part) :
      HasTokens fits (.branch rule left leftAfter parts)

/-- Every node of a tree, at any depth, has parts that fit its rule. -/
inductive HasParts (fits : Rule → List (SyntaxTree Rule) → Prop) : SyntaxTree Rule → Prop
  | token {rule left text} : HasParts fits (.token rule left text)
  | branch {rule left leftAfter parts} (here : fits rule parts) (inner : ∀ part ∈ parts, HasParts fits part) :
      HasParts fits (.branch rule left leftAfter parts)

end SyntaxTree

namespace Grammar

variable {grammar : Grammar Rule} {rule other : Rule} {input place rest : List Char} {trees parts : List (SyntaxTree Rule)}

theorem match?_eq_some : grammar.match? rule input = some (trees, rest) ↔
    ∃ parts, (grammar.body rule).Matches (grammar.matchWithin? rule input) input parts rest ∧
      leaves (grammar.kind rule) rule input rest parts = trees := by
  rw [match?, match?_run, Option.map_eq_some_iff]
  constructor
  · rintro ⟨⟨parts, last⟩, isBody, same⟩
    obtain ⟨rfl, rfl⟩ := Prod.mk.inj same
    exact ⟨parts, isBody, rfl⟩
  · rintro ⟨parts, isBody, rfl⟩
    exact ⟨(parts, rest), isBody, rfl⟩

/-- What holds of the match of a rule, if it holds of those that the rule calls for, holds of every match. -/
theorem match?_induction {motive : Rule → List Char → List (SyntaxTree Rule) → List Char → Prop}
    (step : ∀ rule input parts rest,
      (grammar.body rule).Matches (grammar.matchWithin? rule input) input parts rest →
      (∀ other place trees after, grammar.matchWithin? rule input other place = some (trees, after) →
        motive other place trees after) →
      motive rule input (leaves (grammar.kind rule) rule input rest parts) rest)
    (isMatch : grammar.match? rule input = some (trees, rest)) : motive rule input trees rest := by
  -- a call is measured below the rule that makes it
  induction size : grammar.measure rule (.ofList input) using Nat.strongRecOn generalizing rule input trees rest with
  | ind size ih =>
    subst size
    obtain ⟨parts, isBody, rfl⟩ := match?_eq_some.mp isMatch
    refine step rule input parts rest isBody fun other place trees after isCall => ?_
    obtain ⟨smaller, isOther⟩ := Option.ite_none_right_eq_some.mp isCall
    exact ih _ smaller isOther rfl

/-- What is known of the tokens that matches of their rules leave is known of all tokens in a tree. -/
theorem hasTokens_of_match? {fits : Rule → List Char → Prop}
    (own : ∀ rule input left text rest,
      grammar.match? rule input = some ([.token rule left text], rest) → fits rule text)
    (isMatch : grammar.match? rule input = some (trees, rest)) : ∀ tree ∈ trees, tree.HasTokens fits := by
  refine match?_induction (motive := fun _ _ trees _ => ∀ tree ∈ trees, tree.HasTokens fits)
    (fun rule input parts rest isBody ih => ?_) isMatch
  have ofParts : ∀ part ∈ parts, part.HasTokens fits :=
    Expression.Yields.forall_mem (fun other _ trees ⟨place, after, isCall⟩ => ih other place trees after isCall)
      (Expression.Matches.yields isBody)
  have whole := match?_eq_some.mpr ⟨parts, isBody, rfl⟩
  cases kind : grammar.kind rule with
  | token =>
    simp only [kind, leaves] at whole ⊢
    exact List.forall_mem_singleton.mpr (.token (own _ _ _ _ _ whole))
  | branch => exact List.forall_mem_singleton.mpr (.branch ofParts)
  | spliced => exact ofParts

/-- What is known of the parts that the body of a rule leaves is known of the parts of all nodes in a tree. -/
theorem hasParts_of_match? {fits : Rule → List (SyntaxTree Rule) → Prop}
    (own : ∀ rule place parts, grammar.kind rule = .branch →
      (grammar.body rule).Yields (grammar.matchWithin? rule place) parts → fits rule parts)
    (isMatch : grammar.match? rule input = some (trees, rest)) : ∀ tree ∈ trees, tree.HasParts fits := by
  refine match?_induction (motive := fun _ _ trees _ => ∀ tree ∈ trees, tree.HasParts fits)
    (fun rule input parts rest isBody ih => ?_) isMatch
  have ofParts : ∀ part ∈ parts, part.HasParts fits :=
    Expression.Yields.forall_mem (fun other _ trees ⟨place, after, isCall⟩ => ih other place trees after isCall)
      (Expression.Matches.yields isBody)
  cases kind : grammar.kind rule with
  | token => exact List.forall_mem_singleton.mpr .token
  | branch => exact List.forall_mem_singleton.mpr (.branch (own rule input parts kind ⟨input, rest, isBody⟩) ofParts)
  | spliced => exact ofParts

section Called

variable (yields : (Expression.call other).Yields (grammar.matchWithin? rule place) trees)

include yields

theorem match?_of_yields : ∃ input rest, grammar.match? other input = some (trees, rest) := by
  obtain ⟨input, rest, isCall⟩ := yields
  exact ⟨input, rest, (Option.ite_none_right_eq_some.mp isCall).2⟩

theorem eq_token_of_yields (kind : grammar.kind other = .token) : ∃ left text, trees = [.token other left text] := by
  obtain ⟨input, rest, isMatch⟩ := match?_of_yields yields
  obtain ⟨parts, -, rfl⟩ := match?_eq_some.mp isMatch
  rw [kind]
  exact ⟨_, _, rfl⟩

theorem eq_branch_of_yields (kind : grammar.kind other = .branch) :
    ∃ left leftAfter parts, trees = [.branch other left leftAfter parts] := by
  obtain ⟨input, rest, isMatch⟩ := match?_of_yields yields
  obtain ⟨parts, -, rfl⟩ := match?_eq_some.mp isMatch
  rw [kind]
  exact ⟨_, _, _, rfl⟩

theorem body_of_yields (kind : grammar.kind other = .spliced) :
    ∃ place, (grammar.body other).Yields (grammar.matchWithin? other place) trees := by
  obtain ⟨input, rest, isMatch⟩ := match?_of_yields yields
  obtain ⟨parts, isBody, rfl⟩ := match?_eq_some.mp isMatch
  rw [kind]
  exact ⟨input, input, rest, isBody⟩

end Called

/-- Rules among which all calls of the spliced ones stay leave only trees of such rules. -/
theorem suits_of_match? {suits : Rule → Prop}
    (closed : ∀ rule, suits rule → grammar.kind rule = .spliced → ∀ other ∈ (grammar.body rule).calls, suits other)
    (isMatch : grammar.match? rule input = some (trees, rest)) (start : suits rule) : ∀ tree ∈ trees, suits tree.rule := by
  refine match?_induction (motive := fun rule _ trees _ => suits rule → ∀ tree ∈ trees, suits tree.rule)
    (fun rule input parts rest isBody ih start => ?_) isMatch start
  cases kind : grammar.kind rule with
  | token | branch => exact List.forall_mem_singleton.mpr start
  | spliced =>
    refine Expression.Yields.forall_mem (fun other member trees yields => ?_) (Expression.Matches.yields isBody)
    obtain ⟨place, after, isCall⟩ := yields
    exact ih other place trees after isCall (closed rule start kind other member)

theorem suits_of_yields {suits : Rule → Prop} {item : Expression Rule}
    (closed : ∀ rule, suits rule → grammar.kind rule = .spliced → ∀ other ∈ (grammar.body rule).calls, suits other)
    (start : ∀ other ∈ item.calls, suits other) (yields : item.Yields (grammar.matchWithin? rule place) trees) :
    ∀ tree ∈ trees, suits tree.rule := by
  refine yields.forall_mem fun other member trees isCall => ?_
  obtain ⟨input, rest, isMatch⟩ := match?_of_yields isCall
  exact suits_of_match? closed isMatch (start other member)

end Grammar

end SiteQuery.Grammar
