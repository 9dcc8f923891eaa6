import Mathlib.Data.List.Basic
import SiteQuery.Proofs.Graphql.Report

/-!
Choosing rules only filters the report.

A validator adds to what it has found so far what it finds in a part, without the violations of rules that were not
chosen: `Walk.chosen`. Where it goes on and what else it collects is the same for all rules, so that the violations are
those of the whole report whose rules were chosen, in the same order: `validate_eq_filter`.
-/

namespace SiteQuery.Graphql

theorem TypeKind.not_leaf_of_composite {kind : TypeKind} (isComposite : kind.isComposite = true) : kind.isLeaf = false := by
  cases kind <;> simp_all [isLeaf, TypeKind.isComposite]

namespace Walk

/-- What is reported of the walk if these rules were chosen. -/
def chosen (rules : List ViolatedRule) (walk : Walk) : Walk :=
  { walk with violations := walk.violations.filter (rules.contains ·.rule) }

/-- What is kept of a definition once its violations were reported. -/
def taken (walk : Walk) : Walk := { walk with violations := [] }

variable {rules : List ViolatedRule} {Item : Type}

theorem append_eq (a b : Walk) :
    a ++ b = ⟨a.violations ++ b.violations, a.usages ++ b.usages, a.spreads ++ b.spreads⟩ := rfl

theorem append_empty (walk : Walk) : walk ++ ({} : Walk) = walk := by
  simp only [append_eq, List.append_nil]

theorem empty_append (walk : Walk) : ({} : Walk) ++ walk = walk := rfl

theorem append_assoc (a b c : Walk) : a ++ b ++ c = a ++ (b ++ c) := by
  simp only [append_eq, List.append_assoc]

theorem append_usages (walk : Walk) (usages : List Usage) :
    walk ++ ({ usages } : Walk) = { walk with usages := walk.usages ++ usages } := by
  simp only [append_eq, List.append_nil]

theorem append_spreads (walk : Walk) (spreads : List String) :
    walk ++ ({ spreads } : Walk) = { walk with spreads := walk.spreads ++ spreads } := by
  simp only [append_eq, List.append_nil]

theorem chosen_append (a b : Walk) : (a ++ b).chosen rules = a.chosen rules ++ b.chosen rules := by
  simp only [chosen, append_eq, List.filter_append]

theorem chosen_empty : chosen rules {} = {} := rfl

theorem chosen_usages (usages : List Usage) : chosen rules { usages } = { usages } := rfl

theorem chosen_spreads (spreads : List String) : chosen rules { spreads } = { spreads } := rfl

/-- What is added for each item is added for all of them. -/
theorem foldl_eq {visit : Walk → Item → Walk} {found : Item → Walk}
    (visits : ∀ walk item, visit walk item = walk ++ (found item).chosen rules) (items : List Item) (walk : Walk) :
    items.foldl visit walk = walk ++ (flat found items).chosen rules := by
  induction items generalizing walk with
  | nil => exact (append_empty walk).symm
  | cons item rest ih => rw [List.foldl_cons, ih, visits, flat, chosen_append, append_assoc]

theorem flat_violations (violations : Item → List Violation) (items : List Item) :
    flat (fun item => { violations := violations item }) items = { violations := items.flatMap violations } := by
  induction items with
  | nil => rfl
  | cons item rest ih => rw [flat, ih, append_eq]; rfl

end Walk

namespace Validator

open Walk

variable (validator : Validator)

theorem report_eq (fault : Fault) (position : Position) (walk : Walk) :
    validator.report fault position walk = walk ++ (Walk.report fault position).chosen validator.rules := by
  have ofFault : (⟨fault, some position⟩ : Violation).rule = fault.rule := rfl
  by_cases isChosen : validator.rules.contains fault.rule = true
  · simp only [report, Walk.report, chosen, isChosen, if_true, append_eq, List.append_nil, List.filter_cons, ofFault,
      List.filter_nil]
  · simp only [report, Walk.report, chosen, isChosen, append_eq, List.append_nil, List.filter_cons, ofFault,
      List.filter_nil, Bool.false_eq_true, if_false]

theorem visitArgument_eq (definitions : List InputDefinition) (walk : Walk) (argument : Document.Argument) :
    validator.visitArgument definitions walk argument =
      walk ++ (ofArgument validator.schema definitions argument).chosen validator.rules := by
  unfold visitArgument ofArgument
  cases InputDefinition.find? definitions argument.name with
  | none => exact (append_empty walk).symm
  | some definition =>
    dsimp only
    rw [chosen_append, ← append_assoc, ← append_usages]
    cases validator.schema.checkLiteral argument.value definition.type with
    | none => rw [chosen_empty, append_empty, chosen_usages]
    | some detail => simp only [report_eq, chosen_usages]

theorem visitDirective_eq (walk : Walk) (directive : Document.Directive) :
    validator.visitDirective walk directive =
      walk ++ (ofDirective validator.schema directive).chosen validator.rules := by
  unfold visitDirective ofDirective
  cases validator.schema.directive? directive.name with
  | none => exact (append_empty walk).symm
  | some definition => exact foldl_eq (validator.visitArgument_eq definition.arguments) directive.arguments walk

theorem visitDirectives_eq (directives : List Document.Directive) (walk : Walk) :
    directives.foldl validator.visitDirective walk =
      walk ++ (ofDirectives validator.schema directives).chosen validator.rules :=
  foldl_eq validator.visitDirective_eq directives walk

mutual

theorem visitSelections_eq (parent : String) (selections : List Document.Selection) (walk : Walk) :
    validator.visitSelections parent selections walk =
      walk ++ (ofSelections validator.schema validator.types parent selections).chosen validator.rules := by
  match selections with
  | [] => exact (append_empty walk).symm
  | first :: rest =>
    rw [visitSelections, visitSelections_eq parent rest, visitSelection_eq parent first, ofSelections, chosen_append,
      append_assoc]

theorem visitSelection_eq (parent : String) (selection : Document.Selection) (walk : Walk) :
    validator.visitSelection parent selection walk =
      walk ++ (ofSelection validator.schema validator.types parent selection).chosen validator.rules := by
  match selection with
  | .field position alias? name arguments directives bodyPosition inner =>
    rw [visitSelection, ofSelection]
    cases validator.schema.field? parent name with
    | none => exact (append_empty walk).symm
    | some definition =>
      have own := foldl_eq (validator.visitArgument_eq definition.arguments) arguments walk
      dsimp only
      rw [visitDirectives_eq, own, append_assoc, ← chosen_append]
      generalize flat _ arguments ++ _ = own
      cases validator.schema.type? definition.type.name with
      | none => rfl
      | some type =>
        have below := fun walk => visitSelections_eq definition.type.name inner walk
        simp only [chosen_append own, ← append_assoc]
        by_cases composite : type.kind.isComposite = true
        · have notLeaf := TypeKind.not_leaf_of_composite composite
          cases inner.isEmpty <;> simp [composite, notLeaf, report_eq, below]
        · cases type.kind.isLeaf <;> cases inner.isEmpty <;> simp [composite, report_eq, chosen_empty, append_empty]
  | .spread position name directives =>
    rw [visitSelection, ofSelection]
    simp only [visitDirectives_eq, ← append_spreads, chosen_append, chosen_spreads, ← append_assoc]
    cases spreadFault? validator.schema validator.types parent name with
    | none => simp only [reportAt, chosen_empty, append_empty]
    | some fault => simp only [reportAt, report_eq]
  | .inline position condition? directives inner =>
    have below := fun parent walk => visitSelections_eq parent inner walk
    cases condition? with
    | none =>
      rw [visitSelection, ofSelection, visitDirectives_eq, below, chosen_append, append_assoc]
    | some condition =>
      simp only [visitSelection, ofSelection, visitCondition, visitDirectives_eq, chosen_append, ← append_assoc]
      cases conditionFault? validator.schema none condition.name with
      | some fault => exact report_eq ..
      | none =>
        simp only [below, chosen_append, ← append_assoc]
        by_cases overlaps : validator.schema.overlap parent condition.name = true
        · simp only [overlaps, if_true, chosen_empty, append_empty]
        · simp only [overlaps, if_false, report_eq, Bool.false_eq_true]

end

theorem visitVariable_eq (walk : Walk) (definition : Document.Variable) :
    validator.visitVariable walk definition =
      walk ++ (ofVariable validator.schema definition).chosen validator.rules := by
  simp only [visitVariable, ofVariable]
  cases validator.schema.type? definition.type.name with
  | none => exact report_eq ..
  | some named =>
    cases isInput : named.kind.isInput with
    | false => simp only [isInput, Bool.not_false, if_true, report_eq]
    | true =>
      simp only [isInput, Bool.not_true, Bool.false_eq_true, if_false]
      cases definition.default? with
      | none => exact (append_empty walk).symm
      | some given =>
        dsimp only
        cases validator.schema.checkLiteral given.value definition.type with
        | none => exact (append_empty walk).symm
        | some detail => exact report_eq ..

theorem visitOperation_eq (operation : Document.Operation) (walk : Walk) :
    validator.visitOperation operation walk =
      walk ++ (ofOperation validator.schema validator.types operation).chosen validator.rules := by
  have declared := foldl_eq validator.visitVariable_eq operation.variableDefinitions walk
  simp only [visitOperation, ofOperation, visitDirectives_eq, chosen_append, ← append_assoc, declared]
  cases validator.schema.rootType? operation.kind with
  | none => simp only [chosen_empty, append_empty]
  | some root => simp only [visitSelections_eq]

theorem visitFragment_eq (fragment : Document.Fragment) (walk : Walk) :
    validator.visitFragment fragment walk =
      walk ++ (ofFragment validator.schema validator.types fragment).chosen validator.rules := by
  simp only [visitFragment, ofFragment, visitCondition, visitDirectives_eq, chosen_append, ← append_assoc]
  cases conditionFault? validator.schema (some fragment.name) fragment.condition.name with
  | none => simp only [visitSelections_eq]
  | some fault => simp only [report_eq]

/-- What is kept of an operation: the variables that it declares, and its walk. -/
def operation? : Document.Definition → Option (List Document.Variable × Walk)
  | .operation operation =>
    some (operation.variableDefinitions, (ofOperation validator.schema validator.types operation).taken)
  | .fragment _ => none

def fragment? : Document.Definition → Option (String × Walk)
  | .operation _ => none
  | .fragment fragment => some (fragment.name, (ofFragment validator.schema validator.types fragment).taken)

/-- A definition adds its violations, and keeps a walk that does not tell which rules were chosen. -/
theorem visitDefinition_eq (findings : Findings) (definition : Document.Definition) :
    validator.visitDefinition findings definition =
      { violations := findings.violations ++
          (ofDefinition validator.schema validator.types definition).violations.filter (validator.rules.contains ·.rule)
        operations := findings.operations ++ (validator.operation? definition).toList
        fragments := (validator.fragment? definition).toList ++ findings.fragments } := by
  cases definition with
  | operation operation =>
    simp only [visitDefinition, visitOperation_eq, append_eq, chosen, taken, operation?, fragment?, ofDefinition,
      List.nil_append, Option.toList]
  | fragment fragment =>
    simp only [visitDefinition, visitFragment_eq, append_eq, chosen, taken, operation?, fragment?, ofDefinition,
      List.nil_append, List.append_nil, Option.toList, List.singleton_append]

theorem visitDefinitions_eq (definitions : List Document.Definition) (findings : Findings) :
    definitions.foldl validator.visitDefinition findings =
      { violations := findings.violations ++ (definitions.flatMap fun definition =>
          (ofDefinition validator.schema validator.types definition).violations).filter (validator.rules.contains ·.rule)
        operations := findings.operations ++ definitions.filterMap validator.operation?
        fragments := (definitions.filterMap validator.fragment?).reverse ++ findings.fragments } := by
  induction definitions generalizing findings with
  | nil => simp
  | cons definition rest ih =>
    rw [List.foldl_cons, ih, visitDefinition_eq]
    simp only [List.flatMap_cons, List.filter_append, List.append_assoc, List.filterMap_cons]
    cases definition <;> simp [operation?, fragment?]

theorem fragments_eq (document : Document) :
    (document.definitions.filterMap validator.fragment?).reverse =
      (Validation.walkedFragments validator.schema validator.types document).changed taken := by
  simp only [Validation.walkedFragments, WalkedFragments.changed, List.map_reverse, Document.fragments,
    List.map_filterMap]
  congr 1
  refine List.filterMap_congr fun definition _ => ?_
  cases definition <;> rfl

theorem allUsages_taken (fragments : WalkedFragments) (walk : Walk) :
    walk.taken.allUsages (fragments.changed taken) = walk.allUsages fragments := by
  have sameUsages : ∀ walk : Walk, walk.taken.usages = walk.usages.map id := fun walk => (List.map_id _).symm
  have reached := WalkedFragments.usages_changed taken (fun _ => rfl) sameUsages
  rw [allUsages, reached, List.map_id]
  rfl

theorem checkUsage_eq (declared : List Document.Variable) (walk : Walk) (usage : Usage) :
    validator.checkUsage declared walk usage =
      walk ++ chosen validator.rules { violations := (Validation.usageViolation? declared usage).toList } := by
  simp only [checkUsage, Validation.usageViolation?]
  cases declared.find? (·.name == usage.name) with
  | none => exact (append_empty walk).symm
  | some definition =>
    dsimp only
    split
    · exact (append_empty walk).symm
    · exact report_eq ..

theorem checkOperation_eq (fragments : WalkedFragments) (walk : Walk) (operation : List Document.Variable × Walk) :
    validator.checkOperation fragments walk operation =
      walk ++ chosen validator.rules { violations :=
        (operation.2.allUsages fragments).filterMap (Validation.usageViolation? operation.1) } := by
  rw [checkOperation, foldl_eq (validator.checkUsage_eq operation.1), flat_violations, List.filterMap_eq_flatMap_toList]

theorem visitAnonymous_eq (walk : Walk) (definition : Document.Definition) :
    validator.visitAnonymous walk definition =
      walk ++ chosen validator.rules { violations := (Validation.anonymousViolation? definition).toList } := by
  cases definition with
  | fragment => exact (append_empty walk).symm
  | operation operation =>
    dsimp only [visitAnonymous, Validation.anonymousViolation?]
    split
    · exact report_eq ..
    · exact (append_empty walk).symm

theorem anonymous_eq (document : Document) :
    (if document.operationCount ≤ 1 then {} else document.definitions.foldl validator.visitAnonymous {}) =
      chosen validator.rules { violations := Validation.anonymousViolations document } := by
  unfold Validation.anonymousViolations
  split
  · rfl
  · rw [foldl_eq validator.visitAnonymous_eq, flat_violations, List.filterMap_eq_flatMap_toList, empty_append]

theorem checkOperations_eq (document : Document) (walk : Walk) :
    (document.definitions.filterMap validator.operation?).foldl
        (validator.checkOperation ((document.definitions.filterMap validator.fragment?).reverse ++ [])) walk =
      walk ++ chosen validator.rules
        { violations := Validation.variableViolations validator.schema validator.types document } := by
  rw [List.append_nil, fragments_eq, foldl_eq (validator.checkOperation_eq _), flat_violations]
  congr 3
  simp only [Validation.variableViolations, List.filterMap_eq_flatMap_toList, List.flatMap_assoc]
  refine List.flatMap_congr fun definition _ => ?_
  cases definition with
  | fragment => rfl
  | operation operation =>
    simp only [operation?, Option.toList, List.flatMap_cons, List.flatMap_nil, List.append_nil, allUsages_taken]

/-- The violations of chosen rules, in the order of the whole report. -/
theorem validate_eq (document : Document) :
    validator.validate document =
      (Validation.report validator.schema validator.types document).filter (validator.rules.contains ·.rule) := by
  simp only [validate, anonymous_eq, visitDefinitions_eq, List.nil_append, checkOperations_eq, Validation.report,
    List.filter_append, append_eq, chosen]

end Validator

/-- Validation is the whole report on the document, filtered. -/
theorem validate_eq_filter (schema : Schema) (document : Document) (fragmentTypes : FragmentTypes)
    (rules : List ViolatedRule) :
    validate schema document fragmentTypes rules =
      (Validation.report schema (fragmentTypes ++ FragmentTypes.ofDocument document) document).filter
        (rules.contains ·.rule) :=
  Validator.validate_eq ⟨schema, fragmentTypes ++ FragmentTypes.ofDocument document, rules⟩ document

/-- With some of the standard rules, validation finds the violations of these rules among those of all, each with its
message and its place, in the same order. -/
theorem validate_chosen (schema : Schema) (document : Document) (fragmentTypes : FragmentTypes)
    (rules : List ViolatedRule) (standard : ∀ rule ∈ rules, rule ∈ ViolatedRule.standard) :
    validate schema document fragmentTypes rules =
      (validate schema document fragmentTypes ViolatedRule.standard).filter (rules.contains ·.rule) := by
  rw [validate_eq_filter, validate_eq_filter, List.filter_filter]
  refine List.filter_congr fun violation _ => ?_
  by_cases isChosen : violation.rule ∈ rules
  · have isStandard := standard violation.rule isChosen
    simp [isChosen, isStandard]
  · simp [isChosen]

/-! Two operations without a name. The first selects from `site`, a leaf; the second spreads a fragment where nothing has
its type, which passes a variable that may be null where `String!` is expected. -/

def faultySchema : Schema where
  types := [{ name := "String", kind := .scalar },
    { name := "Query", kind := .object, fields :=
      [⟨"site", [], .named "String"⟩, ⟨"page", [⟨"path", .nonNull (.named "String"), none⟩], .named "Page"⟩] },
    { name := "Page", kind := .object, fields :=
      [⟨"parent", [⟨"path", .nonNull (.named "String"), none⟩], .named "String"⟩] }]
  directives := []
  queryType := "Query"
  mutationType? := none
  subscriptionType? := none

def faultyDocument : Document where
  definitions := [
    .operation ⟨⟨1, 1⟩, none, .query, [], [], [.field ⟨1, 3⟩ none "site" [] [] ⟨1, 8⟩
      [.field ⟨1, 10⟩ none "title" [] [] ⟨1, 15⟩ []]]⟩,
    .operation ⟨⟨2, 1⟩, none, .query, [⟨"path", .named "String", ⟨2, 14⟩, none, []⟩], [], [.spread ⟨2, 23⟩ "F" []]⟩,
    .fragment ⟨⟨3, 1⟩, "F", ⟨"Page", ⟨3, 15⟩⟩, [], [.field ⟨3, 22⟩ none "parent"
      [⟨"path", ⟨3, 29⟩, .reference "path", ⟨3, 35⟩⟩] [] ⟨3, 41⟩ []]⟩]

def spreadRules : List ViolatedRule := [.variablesInAllowedPosition, .possibleFragmentSpreads]

/-- Of five violations, the two of these rules are found, the spread first although its rule is the second. -/
theorem validate_spreadRules :
    (validate faultySchema faultyDocument [] ViolatedRule.standard).map (·.rule) =
        [.loneAnonymousOperation, .loneAnonymousOperation, .scalarLeafs, .possibleFragmentSpreads,
          .variablesInAllowedPosition] ∧
      (validate faultySchema faultyDocument [] spreadRules).map (·.rule) =
        [.possibleFragmentSpreads, .variablesInAllowedPosition] := by
  have all : (validate faultySchema faultyDocument [] ViolatedRule.standard).map (·.rule) =
      [.loneAnonymousOperation, .loneAnonymousOperation, .scalarLeafs, .possibleFragmentSpreads,
        .variablesInAllowedPosition] := by decide +kernel
  refine ⟨all, ?_⟩
  rw [validate_chosen faultySchema faultyDocument [] spreadRules (by decide)]
  decide +kernel

end SiteQuery.Graphql
