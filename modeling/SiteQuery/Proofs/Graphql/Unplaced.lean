import SiteQuery.Proofs.Graphql.Acceptance
import SiteQuery.Proofs.Graphql.FragmentTypes
import SiteQuery.Proofs.Graphql.Printable
import SiteQuery.Proofs.Graphql.Selections

/-!
Validation does not depend on places.

The walk over a definition without places is the walk over the definition, with the places of what it found
forgotten; so a document is valid as soon as one is that says the same: `Document.validate_unplaced`.
-/

namespace SiteQuery.Graphql

def Usage.unplaced (usage : Usage) : Usage := ⟨usage.name, usage.expected, usage.hasLocationDefault, .start⟩

namespace Usage

mutual

theorem ofValue_unplaced (schema : Schema) (position : Position) (value : Value) (expected : TypeReference)
    (hasDefault : Bool) : ofValue schema .start value expected hasDefault =
      (ofValue schema position value expected hasDefault).map unplaced := by
  match value with
  | .reference name => rfl
  | .list items =>
    simp only [ofValue]
    exact ofItems_unplaced schema position items expected.item
  | .object fields =>
    simp only [ofValue]
    cases schema.type? expected.name with
    | none => rfl
    | some type => exact ofFields_unplaced schema position type fields
  | .null => rfl
  | .number number => rfl
  | .string text => rfl
  | .boolean flag => rfl
  | .enum name => rfl
  | .binary bytes => rfl

theorem ofItems_unplaced (schema : Schema) (position : Position) (items : List Value) (type : TypeReference) :
    ofItems schema .start items type = (ofItems schema position items type).map unplaced := by
  match items with
  | [] => rfl
  | item :: rest =>
    rw [ofItems, ofItems, ofValue_unplaced schema position item, ofItems_unplaced schema position rest, List.map_append]

theorem ofFields_unplaced (schema : Schema) (position : Position) (type : TypeDefinition)
    (fields : List (String × Value)) :
    ofFields schema .start type fields = (ofFields schema position type fields).map unplaced := by
  match fields with
  | [] => rfl
  | (key, value) :: rest =>
    rw [ofFields, ofFields, ofFields_unplaced schema position type rest, List.map_append]
    cases type.inputField? key with
    | none => rfl
    | some field => exact congrArg (· ++ _) (ofValue_unplaced schema position value field.type field.default?.isSome)

end

end Usage

namespace Walk

def unplaced (walk : Walk) : Walk :=
  ⟨walk.violations.map Violation.unplaced, walk.usages.map Usage.unplaced, walk.spreads⟩

theorem unplaced_append (a b : Walk) : (a ++ b).unplaced = a.unplaced ++ b.unplaced := by
  simp only [unplaced, HAppend.hAppend, Append.append, Walk.mk.injEq, and_true]
  exact ⟨List.map_append, List.map_append⟩

theorem unplaced_reportAt (fault? : Option Fault) (position : Position) :
    (reportAt fault? position).unplaced = reportAt fault? .start := by
  cases fault? <;> rfl

theorem flat_map {Item Other : Type} (visit : Other → Walk) (f : Item → Other) (items : List Item) :
    flat visit (items.map f) = flat (visit ∘ f) items := by
  induction items with
  | nil => rfl
  | cons item rest ih => rw [List.map_cons, flat, flat, ih]; rfl

theorem unplaced_flat {Item : Type} (visit : Item → Walk) (items : List Item) :
    (flat visit items).unplaced = flat (fun item => (visit item).unplaced) items := by
  induction items with
  | nil => rfl
  | cons item rest ih => rw [flat, flat, unplaced_append, ih]

section Definitions

variable (schema : Schema) (types : FragmentTypes)

theorem ofArgument_unplaced (definitions : List InputDefinition) (argument : Document.Argument) :
    ofArgument schema definitions argument.unplaced = (ofArgument schema definitions argument).unplaced := by
  simp only [ofArgument, Document.Argument.unplaced]
  cases InputDefinition.find? definitions argument.name with
  | none => rfl
  | some definition =>
    simp only [unplaced_append, Usage.ofValue_unplaced schema argument.valuePosition argument.value]
    cases schema.checkLiteral argument.value definition.type <;> rfl

theorem ofDirective_unplaced (directive : Document.Directive) :
    ofDirective schema directive.unplaced = (ofDirective schema directive).unplaced := by
  simp only [ofDirective, Document.Directive.unplaced]
  cases schema.directive? directive.name with
  | none => rfl
  | some definition =>
    simp only [flat_map, unplaced_flat, Function.comp_def, ofArgument_unplaced]

theorem ofDirectives_unplaced (directives : List Document.Directive) :
    ofDirectives schema (directives.map Document.Directive.unplaced) = (ofDirectives schema directives).unplaced := by
  simp only [ofDirectives, flat_map, unplaced_flat, Function.comp_def, ofDirective_unplaced]

mutual

theorem ofSelections_unplaced (parent : String) (selections : List Document.Selection) :
    ofSelections schema types parent (Document.Selection.unplacedAll selections) =
      (ofSelections schema types parent selections).unplaced := by
  match selections with
  | [] => rfl
  | first :: rest =>
    rw [Document.Selection.unplacedAll, ofSelections, ofSelections, ofSelection_unplaced parent first,
      ofSelections_unplaced parent rest, unplaced_append]

theorem ofSelection_unplaced (parent : String) (selection : Document.Selection) :
    ofSelection schema types parent selection.unplaced = (ofSelection schema types parent selection).unplaced := by
  match selection with
  | .field position alias? name arguments directives bodyPosition inner =>
    have below (parent : String) := ofSelections_unplaced parent inner
    have sameEmpty : (Document.Selection.unplacedAll inner).isEmpty = inner.isEmpty := by
      cases inner <;> rfl
    simp only [Document.Selection.unplaced, ofSelection]
    cases schema.field? parent name with
    | none => rfl
    | some definition =>
      simp only [flat_map, Function.comp_def, ofArgument_unplaced, ofDirectives_unplaced, below, sameEmpty]
      cases schema.type? definition.type.name with
      | none => simp only [unplaced_append, unplaced_flat]
      | some type =>
        simp only [unplaced_append, unplaced_flat]
        cases type.kind.isLeaf <;> cases type.kind.isComposite <;> cases inner.isEmpty <;> rfl
  | .spread position name directives =>
    simp only [Document.Selection.unplaced, ofSelection, unplaced_append, unplaced_reportAt, ofDirectives_unplaced]
    rfl
  | .inline position condition? directives inner =>
    have below (parent : String) := ofSelections_unplaced parent inner
    simp only [Document.Selection.unplaced, ofSelection, unplaced_append, ofDirectives_unplaced]
    cases condition? with
    | none => simp only [Option.map_none, below]
    | some condition =>
      simp only [Option.map_some, Document.Condition.unplaced, below]
      cases conditionFault? schema none condition.name with
      | some fault => rfl
      | none =>
        simp only [unplaced_append]
        cases schema.overlap parent condition.name <;> rfl

end

theorem ofVariable_unplaced (definition : Document.Variable) :
    ofVariable schema definition.unplaced = (ofVariable schema definition).unplaced := by
  simp only [ofVariable, Document.Variable.unplaced]
  cases schema.type? definition.type.name with
  | none => rfl
  | some named =>
    dsimp only
    cases named.kind.isInput with
    | false => rfl
    | true =>
      cases definition.default? with
      | none => rfl
      | some given =>
        simp only [Option.map_some]
        cases schema.checkLiteral given.value definition.type <;> rfl

/-- The walk without places. -/
theorem ofDefinition_unplaced (definition : Document.Definition) :
    ofDefinition schema types definition.unplaced = (ofDefinition schema types definition).unplaced := by
  cases definition with
  | operation operation =>
    simp only [Document.Definition.unplaced, ofDefinition, ofOperation, flat_map, Function.comp_def, ofVariable_unplaced,
      ofDirectives_unplaced, unplaced_append, unplaced_flat]
    cases schema.rootType? operation.kind with
    | none => rfl
    | some root => simp only [ofSelections_unplaced]
  | fragment fragment =>
    simp only [Document.Definition.unplaced, Document.Condition.unplaced, ofDefinition, ofFragment, ofDirectives_unplaced,
      unplaced_append]
    cases conditionFault? schema (some fragment.name) fragment.condition.name with
    | some fault => rfl
    | none => simp only [ofSelections_unplaced]

end Definitions

end Walk

namespace WalkedFragments

def unplaced (fragments : WalkedFragments) : WalkedFragments :=
  fragments.map fun fragment => (fragment.1, fragment.2.unplaced)

theorem usages_unplaced (fragments : WalkedFragments) (stack : List String) :
    fragments.unplaced.usages stack = (fragments.usages stack).map Usage.unplaced :=
  usages_changed Walk.unplaced (fun _ => rfl) (fun _ => rfl) fragments stack

end WalkedFragments

namespace Document

def unplaced (document : Document) : Document := ⟨document.definitions.map Definition.unplaced⟩

theorem fragments_unplaced (document : Document) :
    document.unplaced.fragments = document.fragments.map fun fragment =>
      ⟨.start, fragment.name, fragment.condition.unplaced, fragment.directives.map Directive.unplaced,
        Selection.unplacedAll fragment.selections⟩ := by
  simp only [fragments, unplaced, List.filterMap_map, List.map_filterMap]
  refine List.filterMap_congr fun definition _ => ?_
  cases definition <;> rfl

end Document

theorem FragmentTypes.ofDocument_unplaced (document : Document) : ofDocument document.unplaced = ofDocument document := by
  simp only [ofDocument, Document.fragments_unplaced, List.map_map]
  rfl

namespace Validation

variable (schema : Schema) (types : FragmentTypes)

theorem usageViolation?_unplaced (declared : List Document.Variable) (usage : Usage) :
    usageViolation? (declared.map Document.Variable.unplaced) usage.unplaced =
      (usageViolation? declared usage).map Violation.unplaced := by
  have sameName : (fun definition : Document.Variable => definition.name == usage.name) ∘ Document.Variable.unplaced =
      fun definition => definition.name == usage.name := rfl
  simp only [usageViolation?, Usage.unplaced, List.find?_map, sameName]
  cases declared.find? (·.name == usage.name) with
  | none => rfl
  | some definition =>
    have sameType : definition.unplaced.type = definition.type := rfl
    have sameDefault : (definition.unplaced.default?.any fun given => !given.value.isNull) =
        definition.default?.any fun given => !given.value.isNull := by
      cases given : definition.default? <;> simp [Document.Variable.unplaced, given]
    simp only [Option.map_some, sameType, sameDefault]
    by_cases allowed : usage.expected.allows usage.hasLocationDefault definition.type
        (definition.default?.any fun given => !given.value.isNull) = true
    · rw [if_pos allowed, if_pos allowed]
      rfl
    · rw [if_neg allowed, if_neg allowed]
      rfl

theorem walkedFragments_unplaced (document : Document) :
    walkedFragments schema types document.unplaced = (walkedFragments schema types document).unplaced := by
  simp only [walkedFragments, WalkedFragments.unplaced, Document.fragments_unplaced, List.map_map, List.map_reverse]
  congr 1
  refine List.map_congr_left fun fragment _ => ?_
  exact congrArg (fragment.name, ·) (Walk.ofDefinition_unplaced schema types (.fragment fragment))

theorem anonymousViolations_unplaced (document : Document) :
    anonymousViolations document.unplaced = (anonymousViolations document).map Violation.unplaced := by
  have sameCount : document.unplaced.operationCount = document.operationCount := by
    simp only [Document.operationCount, Document.unplaced, List.countP_map]
    refine List.countP_congr fun definition _ => ?_
    cases definition <;> rfl
  simp only [anonymousViolations, sameCount]
  split
  · rfl
  · simp only [Document.unplaced, List.filterMap_map, List.map_filterMap]
    refine List.filterMap_congr fun definition _ => ?_
    cases definition with
    | fragment => rfl
    | operation operation =>
      cases named : operation.name? <;> simp [Document.Definition.unplaced, anonymousViolation?, named]; rfl

theorem variableViolations_unplaced (document : Document) :
    variableViolations schema types document.unplaced =
      (variableViolations schema types document).map Violation.unplaced := by
  simp only [variableViolations, Document.unplaced, List.flatMap_map, List.map_flatMap]
  refine List.flatMap_congr fun definition _ => ?_
  cases definition with
  | fragment => rfl
  | operation operation =>
    have ofOperation : Walk.ofOperation schema types ⟨.start, operation.name?, operation.kind,
        operation.variableDefinitions.map Document.Variable.unplaced,
        operation.directives.map Document.Directive.unplaced, Document.Selection.unplacedAll operation.selections⟩ =
          (Walk.ofOperation schema types operation).unplaced :=
      Walk.ofDefinition_unplaced schema types (.operation operation)
    have ofFragments := walkedFragments_unplaced schema types document
    simp only [Document.unplaced] at ofFragments
    simp only [Function.comp_def, Document.Definition.unplaced, ofOperation, ofFragments, Walk.allUsages,
      WalkedFragments.usages_unplaced, Walk.unplaced, ← List.map_append, List.filterMap_map, List.map_filterMap,
      usageViolation?_unplaced]

theorem report_unplaced (document : Document) :
    report schema types document.unplaced = (report schema types document).map Violation.unplaced := by
  simp only [report, List.map_append, anonymousViolations_unplaced, variableViolations_unplaced]
  congr 2
  simp only [Document.unplaced, List.flatMap_map, List.map_flatMap, Walk.ofDefinition_unplaced]
  rfl

end Validation

/-- The report on a document without places is the report without places. -/
theorem Document.validate_unplaced (schema : Schema) (document : Document) (types : FragmentTypes)
    (rules : List ViolatedRule) :
    validate schema document.unplaced types rules = (validate schema document types rules).map Violation.unplaced := by
  simp only [validate_eq_filter, FragmentTypes.ofDocument_unplaced, Validation.report_unplaced, List.filter_map]
  rfl

theorem Document.valid_unplaced_iff {schema : Schema} {document : Document} {rules : List ViolatedRule} :
    validate schema document.unplaced (.ofDocument document.unplaced) rules = [] ↔
      validate schema document (.ofDocument document) rules = [] := by
  rw [validate_unplaced, FragmentTypes.ofDocument_unplaced, List.map_eq_nil_iff]

end SiteQuery.Graphql
