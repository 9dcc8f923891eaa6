import SiteQuery.Graphql.Validation.Basic

/-!
All that is wrong with a document, whatever rules were chosen.

What is found in a part of a definition is told by the part alone, and that in the whole is put together from the parts.
-/

namespace SiteQuery.Graphql

namespace Walk

instance : Append Walk where
  append a b := ⟨a.violations ++ b.violations, a.usages ++ b.usages, a.spreads ++ b.spreads⟩

def flat {Item : Type} (visit : Item → Walk) : List Item → Walk
  | [] => {}
  | item :: rest => visit item ++ flat visit rest

def report (fault : Fault) (position : Position) : Walk := { violations := [⟨fault, some position⟩] }

def ofArgument (schema : Schema) (definitions : List InputDefinition) (argument : Document.Argument) : Walk :=
  match InputDefinition.find? definitions argument.name with
  | none => {}
  | some definition =>
    let found : Walk :=
      match schema.checkLiteral argument.value definition.type with
      | some detail => report (.invalidArgument argument.name argument.value detail) argument.valuePosition
      | none => {}
    found ++ { usages := Usage.ofValue schema argument.valuePosition argument.value definition.type
                definition.default?.isSome }

def ofDirective (schema : Schema) (directive : Document.Directive) : Walk :=
  match schema.directive? directive.name with
  | none => {}
  | some definition => flat (ofArgument schema definition.arguments) directive.arguments

def ofDirectives (schema : Schema) (directives : List Document.Directive) : Walk :=
  flat (ofDirective schema) directives

def reportAt (fault? : Option Fault) (position : Position) : Walk :=
  match fault? with
  | some fault => report fault position
  | none => {}

mutual

def ofSelections (schema : Schema) (types : FragmentTypes) (parent : String) : List Document.Selection → Walk
  | [] => {}
  | selection :: rest => ofSelection schema types parent selection ++ ofSelections schema types parent rest

def ofSelection (schema : Schema) (types : FragmentTypes) (parent : String) : Document.Selection → Walk
  | .field position _ name arguments directives bodyPosition selections =>
    match schema.field? parent name with
    | none => {}
    | some definition =>
      let own := flat (ofArgument schema definition.arguments) arguments ++ ofDirectives schema directives
      match schema.type? definition.type.name with
      | none => own
      | some type =>
        own ++
          if type.kind.isLeaf then
            if selections.isEmpty then {} else report (.leafWithSelections name definition.type) bodyPosition
          else if type.kind.isComposite then
            if selections.isEmpty then report (.compositeWithoutSelections name definition.type) position
            else ofSelections schema types definition.type.name selections
          else {}
  | .spread position name directives =>
    reportAt (spreadFault? schema types parent name) position ++ { spreads := [name] }
      ++ ofDirectives schema directives
  | .inline position condition? directives selections =>
    ofDirectives schema directives ++
      match condition? with
      | none => ofSelections schema types parent selections
      | some condition =>
        match conditionFault? schema none condition.name with
        | some fault => report fault condition.position
        | none =>
          let narrowing : Walk :=
            if schema.overlap parent condition.name then {}
            else report (.impossibleSpread none parent condition.name) position
          narrowing ++ ofSelections schema types condition.name selections

end

def ofVariable (schema : Schema) (definition : Document.Variable) : Walk :=
  let type := definition.type
  match schema.type? type.name with
  | none => report (.unknownType type.name) definition.typePosition
  | some named =>
    if !named.kind.isInput then report (.nonInputVariable definition.name type) definition.typePosition
    else
      match definition.default? with
      | none => {}
      | some given =>
        match schema.checkLiteral given.value type with
        | some detail => report (.invalidDefault definition.name type given.value detail) given.position
        | none => {}

def ofOperation (schema : Schema) (types : FragmentTypes) (operation : Document.Operation) : Walk :=
  let body : Walk :=
    match schema.rootType? operation.kind with
    | some root => ofSelections schema types root.name operation.selections
    | none => {}
  flat (ofVariable schema) operation.variableDefinitions ++ body ++ ofDirectives schema operation.directives

def ofFragment (schema : Schema) (types : FragmentTypes) (fragment : Document.Fragment) : Walk :=
  let condition := fragment.condition
  let body : Walk :=
    match conditionFault? schema (some fragment.name) condition.name with
    | some fault => report fault condition.position
    | none => ofSelections schema types condition.name fragment.selections
  body ++ ofDirectives schema fragment.directives

def ofDefinition (schema : Schema) (types : FragmentTypes) : Document.Definition → Walk
  | .operation operation => ofOperation schema types operation
  | .fragment fragment => ofFragment schema types fragment

end Walk

namespace WalkedFragments

theorem usages_of_missing {fragments : WalkedFragments} {name : String}
    (missing : fragments.find? (·.1 == name) = none) (rest : List String) :
    fragments.usages (name :: rest) = fragments.usages rest := by
  rw [usages]
  split
  · rfl
  · rename_i found
    cases missing.symm.trans found

theorem usages_of_found {fragments : WalkedFragments} {name key : String} {walk : Walk}
    (found : fragments.find? (·.1 == name) = some (key, walk)) (rest : List String) :
    fragments.usages (name :: rest) =
      walk.usages ++ (fragments.without name).usages (walk.spreads.eraseDups.reverse ++ rest) := by
  rw [usages]
  split
  · rename_i missing
    cases missing.symm.trans found
  · rename_i isFound
    cases isFound.symm.trans found
    rfl

section Changed

variable (change : Walk → Walk) {changeUsage : Usage → Usage}

def changed (change : Walk → Walk) (fragments : WalkedFragments) : WalkedFragments :=
  fragments.map fun fragment => (fragment.1, change fragment.2)

theorem without_changed (fragments : WalkedFragments) (name : String) :
    (fragments.changed change).without name = (fragments.without name).changed change := by
  simp only [without, changed, List.filter_map, Function.comp_def]

theorem find?_changed (fragments : WalkedFragments) (name : String) :
    (fragments.changed change).find? (·.1 == name) =
      (fragments.find? (·.1 == name)).map fun fragment => (fragment.1, change fragment.2) := by
  simp only [changed, List.find?_map, Function.comp_def]

/-- What is reached is changed as the walks are, as long as they spread the same fragments. -/
theorem usages_changed (sameSpreads : ∀ walk, (change walk).spreads = walk.spreads)
    (changedUsages : ∀ walk, (change walk).usages = walk.usages.map changeUsage)
    (fragments : WalkedFragments) (stack : List String) :
    (fragments.changed change).usages stack = (fragments.usages stack).map changeUsage := by
  induction fragments, stack using usages.induct with
  | case1 fragments => simp [usages]
  | case2 fragments name rest missing ih =>
    have stillMissing := find?_changed change fragments name
    rw [missing] at stillMissing
    rw [usages_of_missing stillMissing, usages_of_missing missing, ih]
  | case3 fragments name rest key walk found ih =>
    have stillFound := find?_changed change fragments name
    rw [found] at stillFound
    rw [usages_of_found stillFound, usages_of_found found, without_changed, sameSpreads, changedUsages, List.map_append,
      ← ih]

end Changed

end WalkedFragments

namespace Validation

def usageViolation? (declared : List Document.Variable) (usage : Usage) : Option Violation :=
  match declared.find? (·.name == usage.name) with
  | none => none
  | some definition =>
    let hasNonNullDefault := definition.default?.any (!·.value.isNull)
    if usage.expected.allows usage.hasLocationDefault definition.type hasNonNullDefault then none
    else some ⟨.variablePosition usage.name definition.type usage.expected, some usage.position⟩

def anonymousViolation? : Document.Definition → Option Violation
  | .operation operation =>
    if operation.name?.isNone then some ⟨.anonymousOperation, some operation.position⟩ else none
  | .fragment _ => none

def anonymousViolations (document : Document) : List Violation :=
  if document.operationCount ≤ 1 then [] else document.definitions.filterMap anonymousViolation?

def walkedFragments (schema : Schema) (types : FragmentTypes) (document : Document) : WalkedFragments :=
  (document.fragments.map fun fragment => (fragment.name, Walk.ofFragment schema types fragment)).reverse

def variableViolations (schema : Schema) (types : FragmentTypes) (document : Document) : List Violation :=
  let fragments := walkedFragments schema types document
  document.definitions.flatMap fun
    | .operation operation =>
      let usages := (Walk.ofOperation schema types operation).allUsages fragments
      usages.filterMap (usageViolation? operation.variableDefinitions)
    | .fragment _ => []

/-- All violations, whatever their rule. -/
def report (schema : Schema) (types : FragmentTypes) (document : Document) : List Violation :=
  anonymousViolations document
    ++ document.definitions.flatMap (fun definition => (Walk.ofDefinition schema types definition).violations)
    ++ variableViolations schema types document

end Validation

end SiteQuery.Graphql
