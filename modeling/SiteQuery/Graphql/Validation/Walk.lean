import SiteQuery.Graphql.Validation.Literal

/-!
The walk over a definition: what is wrong in it, where it uses variables, and which fragments it spreads.

A validator takes what it has found so far from one part of the definition to the next. It reports a fault only if the
rule that is violated was chosen.
-/

namespace SiteQuery.Graphql

/-- A variable at an argument, or at a part of one. -/
structure Usage where
  name : String
  expected : TypeReference
  hasLocationDefault : Bool
  position : Position
deriving Repr, Inhabited

namespace Usage

mutual

def ofValue (schema : Schema) (position : Position) : Value → TypeReference → Bool → List Usage
  | .reference name, expected, hasDefault => [⟨name, expected, hasDefault, position⟩]
  | .list items, expected, _ => ofItems schema position items expected.item
  | .object fields, expected, _ =>
    match schema.type? expected.name with
    | some type => ofFields schema position type fields
    | none => []
  | _, _, _ => []

def ofItems (schema : Schema) (position : Position) : List Value → TypeReference → List Usage
  | [], _ => []
  | item :: rest, type => ofValue schema position item type false ++ ofItems schema position rest type

def ofFields (schema : Schema) (position : Position) (type : TypeDefinition) :
    List (String × Value) → List Usage
  | [] => []
  | (key, value) :: rest =>
    (match type.inputField? key with
      | some field => ofValue schema position value field.type field.default?.isSome
      | none => []) ++ ofFields schema position type rest

end

end Usage

/-- What has been found so far. -/
structure Walk where
  violations : List Violation := []
  usages : List Usage := []
  spreads : List String := []
deriving Repr, Inhabited

/-- The type condition of each fragment; the last entry of a name counts. -/
abbrev FragmentTypes := List (String × String)

namespace FragmentTypes

def get? (types : FragmentTypes) (name : String) : Option String :=
  (types.reverse.find? (·.1 == name)).map (·.2)

def ofDocument (document : Document) : FragmentTypes :=
  document.fragments.map fun fragment => (fragment.name, fragment.condition.name)

end FragmentTypes

namespace Walk

/-- What is wrong with a type condition; what it guards is walked only if nothing is. -/
def conditionFault? (schema : Schema) (fragment? : Option String) (type : String) : Option Fault :=
  match schema.type? type with
  | none => some (.unknownType type)
  | some definition =>
    if definition.kind.isComposite then none else some (.nonCompositeCondition fragment? type)

def spreadFault? (schema : Schema) (types : FragmentTypes) (parent name : String) : Option Fault :=
  match types.get? name with
  | some type =>
    if schema.isComposite type && !schema.overlap parent type then
      some (.impossibleSpread (some name) parent type)
    else none
  | none => none

end Walk

structure Validator where
  schema : Schema
  /-- The fragments that may be spread, those of other documents among them. -/
  types : FragmentTypes
  /-- The rules that are reported. -/
  rules : List ViolatedRule

namespace Validator

def report (validator : Validator) (fault : Fault) (position : Position) (walk : Walk) : Walk :=
  if validator.rules.contains fault.rule then
    { walk with violations := walk.violations ++ [⟨fault, some position⟩] }
  else walk

def visitArgument (validator : Validator) (definitions : List InputDefinition) (walk : Walk)
    (argument : Document.Argument) : Walk :=
  match InputDefinition.find? definitions argument.name with
  | none => walk
  | some definition =>
    let checked :=
      match validator.schema.checkLiteral argument.value definition.type with
      | some detail =>
        validator.report (.invalidArgument argument.name argument.value detail) argument.valuePosition walk
      | none => walk
    { checked with
      usages := checked.usages ++ Usage.ofValue validator.schema argument.valuePosition argument.value
        definition.type definition.default?.isSome }

def visitDirective (validator : Validator) (walk : Walk) (directive : Document.Directive) : Walk :=
  match validator.schema.directive? directive.name with
  | none => walk
  | some definition => directive.arguments.foldl (validator.visitArgument definition.arguments) walk

/-- Tells whether what the condition guards can be walked. -/
def visitCondition (validator : Validator) (fragment? : Option String) (condition : Document.Condition) (walk : Walk) :
    Bool × Walk :=
  match Walk.conditionFault? validator.schema fragment? condition.name with
  | some fault => (false, validator.report fault condition.position walk)
  | none => (true, walk)

mutual

def visitSelections (validator : Validator) (parent : String) : List Document.Selection → Walk → Walk
  | [], walk => walk
  | selection :: rest, walk =>
    visitSelections validator parent rest (visitSelection validator parent selection walk)

def visitSelection (validator : Validator) (parent : String) : Document.Selection → Walk → Walk
  | .field position _ name arguments directives bodyPosition selections, walk =>
    match validator.schema.field? parent name with
    | none => walk
    | some definition =>
      let walk := arguments.foldl (validator.visitArgument definition.arguments) walk
      let walk := directives.foldl validator.visitDirective walk
      match validator.schema.type? definition.type.name with
      | none => walk
      | some type =>
        if type.kind.isLeaf && !selections.isEmpty then
          validator.report (.leafWithSelections name definition.type) bodyPosition walk
        else if type.kind.isComposite && selections.isEmpty then
          validator.report (.compositeWithoutSelections name definition.type) position walk
        else if type.kind.isComposite then visitSelections validator definition.type.name selections walk
        else walk
  | .spread position name directives, walk =>
    let walk :=
      match Walk.spreadFault? validator.schema validator.types parent name with
      | some fault => validator.report fault position walk
      | none => walk
    directives.foldl validator.visitDirective { walk with spreads := walk.spreads ++ [name] }
  | .inline position condition? directives selections, walk =>
    let walk := directives.foldl validator.visitDirective walk
    match condition? with
    | none => visitSelections validator parent selections walk
    | some condition =>
      match validator.visitCondition none condition walk with
      | (false, walk) => walk
      | (true, walk) =>
        let walk :=
          if validator.schema.overlap parent condition.name then walk
          else validator.report (.impossibleSpread none parent condition.name) position walk
        visitSelections validator condition.name selections walk

end

def visitVariable (validator : Validator) (walk : Walk) (definition : Document.Variable) : Walk :=
  let type := definition.type
  match validator.schema.type? type.name with
  | none => validator.report (.unknownType type.name) definition.typePosition walk
  | some named =>
    if !named.kind.isInput then
      validator.report (.nonInputVariable definition.name type) definition.typePosition walk
    else
      match definition.default? with
      | none => walk
      | some given =>
        match validator.schema.checkLiteral given.value type with
        | some detail =>
          validator.report (.invalidDefault definition.name type given.value detail) given.position walk
        | none => walk

def visitOperation (validator : Validator) (operation : Document.Operation) (walk : Walk) : Walk :=
  let walk := operation.variableDefinitions.foldl validator.visitVariable walk
  let walk :=
    match validator.schema.rootType? operation.kind with
    | some root => validator.visitSelections root.name operation.selections walk
    | none => walk
  operation.directives.foldl validator.visitDirective walk

def visitFragment (validator : Validator) (fragment : Document.Fragment) (walk : Walk) : Walk :=
  let walk :=
    match validator.visitCondition (some fragment.name) fragment.condition walk with
    | (true, walk) => validator.visitSelections fragment.condition.name fragment.selections walk
    | (false, walk) => walk
  fragment.directives.foldl validator.visitDirective walk

end Validator

end SiteQuery.Graphql
