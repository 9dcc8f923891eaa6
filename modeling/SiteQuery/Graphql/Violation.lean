import SiteQuery.Graphql.Document

/-!
What a document can do wrong, by which rule, and how that is reported.
-/

namespace SiteQuery.Graphql

inductive ViolatedRule where
  | argumentsOfCorrectType
  | defaultValuesOfCorrectType
  | fragmentsOnCompositeTypes
  | knownTypeNames
  | loneAnonymousOperation
  | possibleFragmentSpreads
  | scalarLeafs
  | variablesAreInputTypes
  | variablesInAllowedPosition
  | namedOperations
  | knownOperationTypes
  | fieldsOnCorrectType
  | knownArgumentNames
  | uniqueDefinitionNames
  | knownFragmentNames
deriving DecidableEq, Repr, Inhabited

namespace ViolatedRule

def name : ViolatedRule → String
  | argumentsOfCorrectType => "ArgumentsOfCorrectType"
  | defaultValuesOfCorrectType => "DefaultValuesOfCorrectType"
  | fragmentsOnCompositeTypes => "FragmentsOnCompositeTypes"
  | knownTypeNames => "KnownTypeNames"
  | loneAnonymousOperation => "LoneAnonymousOperation"
  | possibleFragmentSpreads => "PossibleFragmentSpreads"
  | scalarLeafs => "ScalarLeafs"
  | variablesAreInputTypes => "VariablesAreInputTypes"
  | variablesInAllowedPosition => "VariablesInAllowedPosition"
  | namedOperations => "NamedOperations"
  | knownOperationTypes => "KnownOperationTypes"
  | fieldsOnCorrectType => "FieldsOnCorrectType"
  | knownArgumentNames => "KnownArgumentNames"
  | uniqueDefinitionNames => "UniqueDefinitionNames"
  | knownFragmentNames => "KnownFragmentNames"

/-- The rules that every document is validated with. -/
def standard : List ViolatedRule :=
  [argumentsOfCorrectType, defaultValuesOfCorrectType, fragmentsOnCompositeTypes, knownTypeNames,
    loneAnonymousOperation, possibleFragmentSpreads, scalarLeafs, variablesAreInputTypes,
    variablesInAllowedPosition]

end ViolatedRule

/-- Why a literal is not accepted at a type. -/
inductive Mismatch where
  | expected (type : TypeReference) (found : Value)
  | undefinedField (field type : String)
  | missingField (type field : String) (fieldType : TypeReference)
deriving Repr, Inhabited

def Mismatch.message : Mismatch → String
  | expected type found => s!"Expected type \"{type.text}\", found {found.text}."
  | undefinedField field type => s!"Field \"{field}\" is not defined by type \"{type}\"."
  | missingField type field fieldType =>
    s!"Field \"{type}.{field}\" of required type \"{fieldType.text}\" was not provided."

inductive Fault where
  | invalidArgument (argument : String) (value : Value) (detail : Mismatch)
  | invalidDefault (variableName : String) (type : TypeReference) (value : Value) (detail : Mismatch)
  | nonCompositeCondition (fragment? : Option String) (type : String)
  | unknownType (name : String)
  | anonymousOperation
  | impossibleSpread (fragment? : Option String) (parent type : String)
  | leafWithSelections (field : String) (type : TypeReference)
  | compositeWithoutSelections (field : String) (type : TypeReference)
  | nonInputVariable (variableName : String) (type : TypeReference)
  | variablePosition (variableName : String) (type expected : TypeReference)
  | unnamedOperation
  | noRootType (kind : OperationKind)
  | unknownField (field parent : String)
  | unknownArgument (argument parent field : String)
  | duplicateDefinition (name : String)
  | unknownFragment (name owner : String)
deriving Repr, Inhabited

namespace Fault

def rule : Fault → ViolatedRule
  | invalidArgument .. => .argumentsOfCorrectType
  | invalidDefault .. => .defaultValuesOfCorrectType
  | nonCompositeCondition .. => .fragmentsOnCompositeTypes
  | unknownType _ => .knownTypeNames
  | anonymousOperation => .loneAnonymousOperation
  | impossibleSpread .. => .possibleFragmentSpreads
  | leafWithSelections .. => .scalarLeafs
  | compositeWithoutSelections .. => .scalarLeafs
  | nonInputVariable .. => .variablesAreInputTypes
  | variablePosition .. => .variablesInAllowedPosition
  | unnamedOperation => .namedOperations
  | noRootType _ => .knownOperationTypes
  | unknownField .. => .fieldsOnCorrectType
  | unknownArgument .. => .knownArgumentNames
  | duplicateDefinition _ => .uniqueDefinitionNames
  | unknownFragment .. => .knownFragmentNames

def subject : Option String → String
  | some fragment => s!"Fragment \"{fragment}\""
  | none => "Fragment"

def message : Fault → String
  | invalidArgument argument value detail =>
    s!"Argument \"{argument}\" has invalid value {value.text}. {detail.message}"
  | invalidDefault variableName type value detail =>
    s!"Variable \"${variableName}\" of type \"{type.text}\" has invalid default value {value.text}. "
      ++ detail.message
  | nonCompositeCondition fragment? type =>
    s!"{subject fragment?} cannot condition on non composite type \"{type}\"."
  | unknownType name => s!"Unknown type \"{name}\"."
  | anonymousOperation => "This anonymous operation must be the only defined operation."
  | impossibleSpread fragment? parent type =>
    s!"{subject fragment?} cannot be spread here as objects of type \"{parent}\" "
      ++ s!"can never be of type \"{type}\"."
  | leafWithSelections field type =>
    s!"Field \"{field}\" must not have a selection since type \"{type.text}\" has no subfields."
  | compositeWithoutSelections field type =>
    s!"Field \"{field}\" of type \"{type.text}\" must have a selection of subfields. "
      ++ s!"Did you mean \"{field} \x7b ... \x7d\"?"
  | nonInputVariable variableName type =>
    s!"Variable \"${variableName}\" cannot be non-input type \"{type.text}\"."
  | variablePosition variableName type expected =>
    s!"Variable \"${variableName}\" of type \"{type.text}\" used in position expecting type \"{expected.text}\"."
  | unnamedOperation => "Operations must be named so their compiled text can be stored."
  | noRootType kind => s!"Schema does not define a {kind.keyword} root type."
  | unknownField field parent => s!"Cannot query field \"{field}\" on type \"{parent}\"."
  | unknownArgument argument parent field => s!"Unknown argument \"{argument}\" on field \"{parent}.{field}\"."
  | duplicateDefinition name =>
    s!"Duplicate definition named \"{name}\"; operation and fragment names must be unique across the project."
  | unknownFragment name owner => s!"Unknown fragment \"{name}\" used in \"{owner}\"."

end Fault

/-- A fault at its place in the document, if it has one. -/
structure Violation where
  fault : Fault
  position? : Option Position
deriving Repr, Inhabited

namespace Violation

def rule (violation : Violation) : ViolatedRule := violation.fault.rule

def text (violation : Violation) : String :=
  let start := violation.rule.name ++ ": " ++ violation.fault.message
  match violation.position? with
  | some position => start ++ " (" ++ position.text ++ ")"
  | none => start

end Violation

end SiteQuery.Graphql
