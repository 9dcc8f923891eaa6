import SiteQuery.Proofs.Graphql.Parsed
import SiteQuery.Proofs.Graphql.Printing
import SiteQuery.Proofs.Graphql.SettledRules

/-!
Fragments with an operation behind them.

A document of fragments alone is read as before when lines without quotes follow it, whatever it ends with: a comment
that it ends with is closed by the line end, and no fragment takes anything of what follows.
-/

namespace SiteQuery.Grammar.Expression

variable {Rule : Type} {call : Rule → List Char → Match Rule} {blank first second item : Expression Rule}
  {input rest last : List Char} {trees : List (SyntaxTree Rule)}

theorem Refuses.after_first (refused : (Expression.both first second).Refuses call input)
    (isFirst : first.Matches call input trees rest) : second.Refuses call rest :=
  .of_not_matches fun _ _ isSecond => refused.not_matches (isFirst.both isSecond)

/-- A row never refuses. -/
theorem Refuses.before_many (refused : (Expression.both first (.many item)).Refuses call input) : first.Refuses call input := by
  refine .of_not_matches fun trees rest isFirst => ?_
  obtain ⟨others, last, isMany⟩ := exists_repeatedMatch (item.match? call) rest
  exact refused.not_matches (isFirst.both isMany)

/-- What is read as blanks and an item is the item behind all blanks. -/
theorem Matches.of_blank {middle : List Char} (isBlank : IsBlank call blank)
    (isMatch : (Expression.both blank item).Matches call input trees middle) :
    item.Matches call (blank.after call input) trees middle := by
  obtain ⟨blanks, start, parts, isBlanks, isItem, rfl⟩ := Match.next_eq_some.mp isMatch
  obtain ⟨rfl, rfl⟩ := (isBlank.matches_after input).unique isBlanks
  exact isItem

theorem Chain.of_many (isBlank : IsBlank call blank) (strict : item.IsStrict call)
    (isMatch : (Expression.many (.both blank item)).Matches call input trees rest) :
    Chain call item blank input trees rest := by
  have strictBoth : (Expression.both blank item).IsStrict call := fun place _ _ isBoth =>
    Nat.lt_of_lt_of_le (strict _ _ _ (isBoth.of_blank isBlank)) (isBlank.suffix place).length_le
  refine isMatch.many_rec (motive := fun input trees => Chain call item blank input trees rest) strictBoth ?nil ?cons
  case nil => exact fun refused => .nil (refused.after_first (isBlank.matches_after rest))
  case cons => exact fun _ _ _ _ isFirst _ chain => .cons (isFirst.of_blank isBlank).reaches chain

/-- What is read as one or more items is a chain of them, up to the blanks that follow. -/
theorem Chain.of_someSpaced (isBlank : IsBlank call blank) (strict : item.IsStrict call)
    (isMatch : (Expression.someSpaced blank item).Matches call (blank.after call input) trees last) :
    ∃ rest, Chain call item blank input trees rest ∧ blank.after call rest = blank.after call last := by
  obtain ⟨before, middle, more, isFirst, isMore, rfl⟩ := Match.next_eq_some.mp isMatch
  have isOthers := Matches.of_blank isBlank isMore
  rcases Option.or_eq_some_iff.mp isOthers with isSome | ⟨refused, isEmpty⟩
  · obtain ⟨second, place, after, isSecond, isMany, rfl⟩ := Match.next_eq_some.mp isSome
    have chain : Chain call item blank middle (second ++ after) last :=
      .cons (Matches.reaches isSecond) (.of_many isBlank strict isMany)
    exact ⟨last, .cons (Matches.reaches isFirst) chain, rfl⟩
  · cases isEmpty
    have noMore : item.Refuses call (blank.after call middle) := Refuses.before_many refused
    exact ⟨middle, .cons (Matches.reaches isFirst) (.nil noMore), (isBlank.after_after middle).symm⟩

end SiteQuery.Grammar.Expression

namespace SiteQuery.Graphql

open Grammar

variable {others input start stop rest last : List Char} {trees hosts : List (Grammar.SyntaxTree Rule)}

theorem skipBlanks_append_congr {other : List Char} (same : skipBlanks input = skipBlanks other) :
    skipBlanks (input ++ '\n' :: others) = skipBlanks (other ++ '\n' :: others) := by
  by_cases none : skipBlanks input = []
  · rw [skipBlanks_append_line none, skipBlanks_append_line (same ▸ none)]
  · rw [skipBlanks_append none, skipBlanks_append (same ▸ none), same]

theorem branch_of_accepts (isMatch : Accepts (.call .executableDefinition) input trees rest) :
    ∃ rule ∈ [Rule.namedOperation, .selectionSet, .fragmentDefinition], ∃ parts,
      trees = [.branch rule input.length rest.length parts] ∧ Accepts (.call rule) input trees rest := by
  obtain ⟨_, isBody, rfl⟩ := accepts_call.mp isMatch
  rcases Option.or_eq_some_iff.mp isBody with isOperation | ⟨_, isFragment⟩
  · obtain ⟨_, isOperation, rfl⟩ := accepts_call.mp isOperation
    rcases Option.or_eq_some_iff.mp isOperation with isNamed | ⟨_, isSet⟩
    · obtain ⟨parts, _, same⟩ := accepts_call.mp isNamed
      exact ⟨.namedOperation, by simp, parts, same, isNamed⟩
    · obtain ⟨parts, _, same⟩ := accepts_call.mp isSet
      exact ⟨.selectionSet, by simp, parts, same, isSet⟩
  · obtain ⟨parts, _, same⟩ := accepts_call.mp isFragment
    exact ⟨.fragmentDefinition, by simp, parts, same, isFragment⟩

def AreFragments (trees : List (Grammar.SyntaxTree Rule)) : Prop := ∀ tree ∈ trees, tree.rule = .fragmentDefinition

theorem steadyAt_executableDefinition (noQuote : '"' ∉ others) (isFragment : Accepts (.call .fragmentDefinition) input trees rest) :
    SteadyAt others (.call .executableDefinition) input := by
  have noOperation (tail : List Char) : Refuses (.call .operationDefinition) (input ++ tail) := by
    obtain ⟨_, isBody, _⟩ := accepts_call.mp isFragment
    obtain ⟨_, place, _, isWord, _⟩ := accepts_spaced_cons.mp isBody
    obtain rfl : input = "fragment".toList ++ place := accepts_word isWord
    refine refuses_operation ?_
    rintro c ⟨⟩
    decide
  have none := noOperation []
  rw [List.append_nil] at none
  refine SteadyAt.call (.either (.of_refuses none (noOperation _)) fun _ => ?_)
  exact settled_fragmentDefinition noQuote _ _ _ (Nat.le_refl _) isFragment trivial

/-- Along the fragments, and then what stands in the other lines. -/
theorem chain_append (noQuote : '"' ∉ others) (notEmpty : hosts ≠ [])
    (hosted : Expression.Chain grammar.match? (.call .executableDefinition) Rule.blank others hosts last)
    (chain : Expression.Chain grammar.match? (.call .executableDefinition) Rule.blank start trees stop)
    (areFragments : AreFragments trees) (ends : skipBlanks stop = []) :
    Expression.Chain grammar.match? (.call .executableDefinition) Rule.blank (start ++ '\n' :: others)
      (SyntaxTree.shiftAll ('\n' :: others).length trees ++ hosts) last := by
  induction chain with
  | nil _ => exact hosted.of_after notEmpty (skipBlanks_append_line ends)
  | @cons start between stop parts more isFirst chain ih =>
    obtain ⟨place, isMatch, atPlace⟩ := isFirst
    obtain ⟨ofParts, ofMore⟩ := List.forall_mem_append.mp areFragments
    obtain ⟨rule, _, inner, rfl, isRule⟩ := branch_of_accepts isMatch
    obtain rfl : rule = .fragmentDefinition := ofParts _ List.mem_cons_self
    have still := (steadyAt_executableDefinition noQuote isRule).matches isMatch
    have notBlank := skipBlanks_notEmpty_of_accepts rfl isMatch
    rw [← skipBlanks_append notBlank] at still
    rw [SyntaxTree.shiftAll_append, List.append_assoc]
    exact .cons ⟨_, still, skipBlanks_append_congr atPlace⟩ (ih ofMore ends)

/-- The definitions of a text stand in a chain that goes to its end. -/
theorem chain_of_treesOf {text : List Char} (isTree : Document.treesOf .executableDocument text = .ok trees) :
    ∃ stop, Expression.Chain grammar.match? (.call .executableDefinition) Rule.blank text trees stop ∧
      skipBlanks stop = [] := by
  obtain ⟨rest, isMatch⟩ := accepts_of_treesOf isTree
  obtain ⟨_, isBody, rfl⟩ := accepts_call.mp isMatch
  obtain ⟨_, _, _, isEmpty, isRest, rfl⟩ := accepts_spaced_cons.mp isBody
  cases isEmpty
  obtain ⟨definitions, place, _, areDefinitions, isEnd, rfl⟩ := accepts_spaced_cons.mp isRest
  obtain ⟨stop, chain, atStop⟩ := Expression.Chain.of_someSpaced isBlank_blank (strict_call .executableDefinition rfl) areDefinitions
  obtain ⟨_, isEnding, rfl⟩ := accepts_call.mp isEnd
  simp only [Rule.body, Accepts, Expression.Matches, Expression.match?, Option.ite_none_right_eq_some] at isEnding
  obtain ⟨ends, isNothing⟩ := isEnding
  cases isNothing
  refine ⟨stop, ?_, atStop.trans ends⟩
  simpa [Grammar.leaves, Rule.kind] using chain

/-- Fragments are read as before, and then what stands in the other lines. -/
theorem treesOf_append {text : List Char} (noQuote : '"' ∉ others) (notEmpty : hosts ≠ [])
    (hosted : Document.treesOf .executableDocument others = .ok hosts)
    (isTree : Document.treesOf .executableDocument text = .ok trees) (areFragments : AreFragments trees) :
    Document.treesOf .executableDocument (text ++ '\n' :: others) =
      .ok (SyntaxTree.shiftAll ('\n' :: others).length trees ++ hosts) := by
  obtain ⟨stop, chain, atStop⟩ := chain_of_treesOf isTree
  obtain ⟨last, behind, atLast⟩ := chain_of_treesOf hosted
  have all := chain_append noQuote notEmpty behind chain areFragments atStop
  exact treesOf_of_chain all atLast (List.append_ne_nil_of_right_ne_nil _ notEmpty)

end SiteQuery.Graphql
