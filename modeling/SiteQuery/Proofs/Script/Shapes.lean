import SiteQuery.Proofs.Grammar.Trees
import SiteQuery.Script.Module

/-!
The shapes of the nodes in the tree of a module.

`Fits` says of the nodes that a walk looks into what the grammar makes of them: only a chain starts with a tagged
template, a declarator starts with what it binds, and a `do` loop has a body and a condition. It holds at any depth of
what is read: `formed_of_parse`.
-/

namespace SiteQuery.Script.Module

open Grammar

/-- A template and the bare name before it that is its tag. -/
structure Template where
  name : List Char
  left : Nat
  leftAfter : Nat
  parts : List SyntaxTree

/-- The tagged template that parts start with; there may be type arguments after its tag. -/
def templateOf? : List SyntaxTree → Option Template
  | .token .identifier left name :: .branch .template _ leftAfter parts :: _ => some ⟨name, left, leftAfter, parts⟩
  | .token .identifier left name :: .token .typeArguments _ _ :: .branch .template _ leftAfter parts :: _ =>
    some ⟨name, left, leftAfter, parts⟩
  | _ => none

/-- What the grammar makes of the parts of a node. -/
structure Fits (rule : Rule) (parts : List SyntaxTree) : Prop where
  template : templateOf? parts ≠ none → rule = .chain ∨ rule = .callee
  declarator : ∀ allowIn, rule = .declarator allowIn →
    (∃ left text rest, parts = .token .bindingName left text :: rest) ∨
      ∃ left leftAfter inner rest, parts = .branch .bindingPattern left leftAfter inner :: rest
  loop : rule = .doWhile → ∃ bodyLeft bodyAfter body testLeft testAfter test,
    parts = [.branch .doBody bodyLeft bodyAfter body, .branch .doTest testLeft testAfter test]

/-- A tree with fitting parts at any depth. -/
abbrev IsFormed (tree : SyntaxTree) : Prop := tree.HasParts Fits

namespace IsFormed

variable {rule : Rule} {left leftAfter : Nat} {parts : List SyntaxTree}

theorem fits (formed : ∀ tree ∈ [.branch rule left leftAfter parts], IsFormed tree) : Fits rule parts := by
  cases List.forall_mem_singleton.mp formed with
  | branch here _ => exact here

theorem inner (formed : ∀ tree ∈ [.branch rule left leftAfter parts], IsFormed tree) :
    ∀ part ∈ parts, IsFormed part := by
  cases List.forall_mem_singleton.mp formed with
  | branch _ inner => exact inner

end IsFormed

section Templates

variable {parts : List SyntaxTree}

theorem rules_of_templateOf? (isTagged : templateOf? parts ≠ none) :
    (∃ tree ∈ parts, tree.rule = .identifier) ∧ ∃ tree ∈ parts, tree.rule = .template := by
  unfold templateOf? at isTagged
  split at isTagged
  · exact ⟨⟨_, List.mem_cons_self, rfl⟩, _, .tail _ (.head _), rfl⟩
  · exact ⟨⟨_, List.mem_cons_self, rfl⟩, _, .tail _ (.tail _ (.head _)), rfl⟩
  · exact absurd rfl isTagged

end Templates

section Rules

variable {dialect : Dialect} {rule other : Rule} {place : List Char} {trees parts : List SyntaxTree}

/-- The rules that leave identifiers among the parts of the rule that calls them. -/
def leavesIdentifier (rule : Rule) : Bool := rule == .identifier || rule == .objectMember

theorem closed_leavesIdentifier (rule : Rule) (avoids : leavesIdentifier rule = false) (spliced : rule.kind = .spliced) :
    ∀ other ∈ (rule.body dialect).calls, leavesIdentifier other = false := by
  -- in each of the dialects, the calls of a rule are a closed list
  obtain ⟨markup, types⟩ := dialect
  cases markup <;> cases types <;> cases rule <;> first | cases spliced; done | cases avoids; done | decide +revert

theorem closed_ne_template (rule : Rule) (spliced : rule.kind = .spliced) :
    ∀ other ∈ (rule.body dialect).calls, other ≠ .template := by
  obtain ⟨markup, types⟩ := dialect
  cases markup <;> cases types <;> cases rule <;> first | cases spliced; done | decide +revert

/-- Only in a chain may an identifier and a template be parts of one node: elsewhere they are parts of different
alternatives, as a member `a` and a whole template are in what stands for a value. -/
theorem apart_of_alternatives (isBranch : rule.kind = .branch) (notChain : rule ≠ .chain) (notCallee : rule ≠ .callee) :
    ∀ item ∈ (rule.body dialect).alternatives,
      (∀ other ∈ item.calls, leavesIdentifier other = false) ∨ ∀ other ∈ item.calls, other ≠ .template := by
  obtain ⟨markup, types⟩ := dialect
  cases markup <;> cases types <;> cases rule <;>
    first | cases isBranch; done | exact absurd rfl notChain | exact absurd rfl notCallee | decide +revert

theorem chain_of_templateOf? (isBranch : rule.kind = .branch)
    (yields : (rule.body dialect).Yields ((grammar dialect).matchWithin? rule place) parts)
    (isTagged : templateOf? parts ≠ none) : rule = .chain ∨ rule = .callee := by
  refine Decidable.byContradiction fun isOther => ?_
  obtain ⟨notChain, notCallee⟩ := not_or.mp isOther
  obtain ⟨⟨name, hasName, isName⟩, template, hasTemplate, isTemplate⟩ := rules_of_templateOf? isTagged
  obtain ⟨item, member, isItem⟩ := yields.of_alternatives
  rcases apart_of_alternatives isBranch notChain notCallee item member with noName | noTemplate
  · have avoids := Grammar.suits_of_yields closed_leavesIdentifier noName isItem name hasName
    rw [isName] at avoids
    cases avoids
  · exact Grammar.suits_of_yields (fun rule _ => closed_ne_template rule) noTemplate isItem template hasTemplate isTemplate

theorem binding_of_yields
    (yields : (Expression.call .binding).Yields ((grammar dialect).matchWithin? rule place) trees) :
    (∃ left text, trees = [.token .bindingName left text]) ∨
      ∃ left leftAfter inner, trees = [.branch .bindingPattern left leftAfter inner] := by
  obtain ⟨start, isBody⟩ := Grammar.body_of_yields yields rfl
  rcases isBody.of_either with isName | isPattern
  · exact .inl (Grammar.eq_token_of_yields isName rfl)
  · exact .inr (Grammar.eq_branch_of_yields isPattern rfl)

theorem binding_of_declarator {allowIn : Bool}
    (yields : ((Rule.declarator allowIn).body dialect).Yields ((grammar dialect).matchWithin? rule place) parts) :
    (∃ left text rest, parts = .token .bindingName left text :: rest) ∨
      ∃ left leftAfter inner rest, parts = .branch .bindingPattern left leftAfter inner :: rest := by
  obtain ⟨bound, rest, rfl, isBound, -⟩ := yields.of_both
  rcases binding_of_yields isBound with ⟨left, text, rfl⟩ | ⟨left, leftAfter, inner, rfl⟩
  · exact .inl ⟨left, text, rest, rfl⟩
  · exact .inr ⟨left, leftAfter, inner, rest, rfl⟩

theorem parts_of_doWhile
    (yields : ((Rule.doWhile).body dialect).Yields ((grammar dialect).matchWithin? rule place) parts) :
    ∃ bodyLeft bodyAfter body testLeft testAfter test,
      parts = [.branch .doBody bodyLeft bodyAfter body, .branch .doTest testLeft testAfter test] := by
  have afterDo := (yields.of_both_plain rfl).of_plain_both rfl
  obtain ⟨loopBody, rest, rfl, isBody, isRest⟩ := afterDo.of_both
  obtain ⟨bodyLeft, bodyAfter, body, rfl⟩ := Grammar.eq_branch_of_yields (isBody.of_plain_both rfl) rfl
  have isTest := (isRest.of_plain_both rfl).of_plain_both rfl
  obtain ⟨testLeft, testAfter, test, rfl⟩ := Grammar.eq_branch_of_yields isTest rfl
  exact ⟨bodyLeft, bodyAfter, body, testLeft, testAfter, test, rfl⟩

theorem fits_of_yields (isBranch : rule.kind = .branch)
    (yields : (rule.body dialect).Yields ((grammar dialect).matchWithin? rule place) parts) : Fits rule parts where
  template := chain_of_templateOf? isBranch yields
  declarator := by
    rintro allowIn rfl
    exact binding_of_declarator yields
  loop := by
    rintro rfl
    exact parts_of_doWhile yields

theorem formed_of_parse {text : List Char} (parsed : (grammar dialect).parse rule text = .ok trees) :
    ∀ tree ∈ trees, IsFormed tree := by
  obtain ⟨rest, isMatch⟩ := Grammar.parse_eq_ok.mp parsed
  exact Grammar.hasParts_of_match? (fun _ _ _ isBranch yields => fits_of_yields isBranch yields) isMatch

end Rules

end SiteQuery.Script.Module
