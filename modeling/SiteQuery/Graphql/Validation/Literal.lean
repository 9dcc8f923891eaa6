import SiteQuery.Graphql.Schema.Basic
import SiteQuery.Graphql.Violation

/-!
Which literals an input type accepts, and which types a variable may be used at.
-/

namespace SiteQuery.Graphql

namespace TypeReference

def withoutNonNull : TypeReference → TypeReference
  | nonNull inner => inner.withoutNonNull
  | other => other

/-- The type of the items, for a list; else the type itself, which may stand for a list of one. -/
def item (type : TypeReference) : TypeReference :=
  match type.nullable with
  | list inner => inner
  | other => other

/-- Every value of the first type is one of the second. -/
def isSubtype : TypeReference → TypeReference → Bool
  | nonNull sub, nonNull super => isSubtype sub super
  | _, nonNull _ => false
  | nonNull sub, super => isSubtype sub super
  | list sub, list super => isSubtype sub super
  | list _, _ => false
  | _, list _ => false
  | named sub, named super => sub == super

/-- A variable of a nullable type is allowed at a non-null place if one of the two has a default. -/
def allows (location : TypeReference) (hasLocationDefault : Bool) (type : TypeReference)
    (hasNonNullDefault : Bool) : Bool :=
  match location with
  | nonNull inner =>
    if type.isNonNull then isSubtype type location
    else (hasNonNullDefault || hasLocationDefault) && isSubtype type inner
  | _ => isSubtype type location

end TypeReference

namespace Value

def isNull : Value → Bool
  | null => true
  | _ => false

/-- Scalars of other names accept every literal. -/
def isScalar (scalar : String) (value : Value) : Bool :=
  match scalar, value with
  | "Int", number (.integer n) => -2147483648 ≤ n && n ≤ 2147483647
  | "Int", _ => false
  | "Float", number _ => true
  | "Float", _ => false
  | "String", string _ => true
  | "String", _ => false
  | "Boolean", boolean _ => true
  | "Boolean", _ => false
  | "ID", string _ => true
  | "ID", number (.integer _) => true
  | "ID", _ => false
  | _, _ => true

def isEnumValue (names : List String) : Value → Bool
  | enum name => names.contains name
  | _ => false

end Value

namespace Schema

/-- The check of a value without parts against a named type. -/
def checkNamed (schema : Schema) (value : Value) (name : String) : Option Mismatch :=
  match schema.type? name with
  | none => none
  | some type =>
    let accepted :=
      match type.kind with
      | .scalar => value.isScalar name
      | .enum => value.isEnumValue type.enumValues
      | _ => false
    if accepted then none else some (.expected (.named name) value)

def missingField? (type : TypeDefinition) (name : String) (fields : List (String × Value)) : Option Mismatch :=
  let isMissing (field : InputDefinition) : Bool :=
    !fields.any (·.1 == field.name) && field.type.isNonNull && field.default?.isNone
  (type.inputFields.find? isMissing).map fun field => .missingField name field.name field.type

mutual

/-- Why a literal is not accepted at a type, if it is not. Variables are accepted everywhere. -/
def checkLiteral (schema : Schema) : Value → TypeReference → Option Mismatch
  | .reference _, _ => none
  | .null, type => if type.isNonNull then some (.expected type .null) else none
  | .list items, type =>
    match type.withoutNonNull with
    | .list inner => checkItems schema items inner
    | _ => schema.checkNamed (.list items) type.name
  | .object fields, type =>
    match schema.type? type.name with
    | some definition =>
      if definition.kind = .inputObject then
        checkFields schema definition type.name fields <|> missingField? definition type.name fields
      else schema.checkNamed (.object fields) type.name
    | none => none
  | value, type => schema.checkNamed value type.name

def checkItems (schema : Schema) : List Value → TypeReference → Option Mismatch
  | [], _ => none
  | item :: rest, type => checkLiteral schema item type <|> checkItems schema rest type

def checkFields (schema : Schema) (type : TypeDefinition) (name : String) :
    List (String × Value) → Option Mismatch
  | [] => none
  | (key, value) :: rest =>
    match type.inputField? key with
    | none => some (.undefinedField key name)
    | some field => checkLiteral schema value field.type <|> checkFields schema type name rest

end

end Schema

end SiteQuery.Graphql
