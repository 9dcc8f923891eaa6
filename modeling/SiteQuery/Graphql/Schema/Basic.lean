import SiteQuery.Graphql.Schema.Definition
import SiteQuery.Sorting

/-!
Schemas and what is asked of them.

`Schema.ofDefinitions` builds a schema from definitions in any order: the last definition of a name wins, and
extensions come after all definitions. A schema that is built refers to no type that it lacks, directive
arguments apart.
-/

namespace SiteQuery.Graphql

structure Schema where
  types : List TypeDefinition
  directives : List DirectiveDefinition
  queryType : String
  mutationType? : Option String
  subscriptionType? : Option String
deriving Repr, Inhabited

inductive SchemaFault where
  | extendsUnknown (name : String)
  | noQueryRoot
  | unknownType (name owner : String)
deriving DecidableEq, Repr

def SchemaFault.message : SchemaFault → String
  | extendsUnknown name => s!"Cannot extend type \"{name}\" because it is not defined."
  | noQueryRoot => "Schema does not define a query root type."
  | unknownType name owner => s!"Unknown type \"{name}\" referenced by {owner}."

namespace TypeDefinition

def field? (type : TypeDefinition) (name : String) : Option FieldDefinition :=
  type.fields.find? (·.name == name)

def inputField? (type : TypeDefinition) (name : String) : Option InputDefinition :=
  type.inputFields.find? (·.name == name)

/-- A type with the additions of an extension, whatever its kind. -/
def extend (type additions : TypeDefinition) : TypeDefinition :=
  { type with
    fields := type.fields ++ additions.fields
    inputFields := type.inputFields ++ additions.inputFields
    enumValues := type.enumValues ++ additions.enumValues
    members := type.members ++ additions.members
    interfaces := type.interfaces ++ additions.interfaces }

def find? (types : List TypeDefinition) (name : String) : Option TypeDefinition :=
  types.find? (·.name == name)

def insert (type : TypeDefinition) : List TypeDefinition → List TypeDefinition
  | [] => [type]
  | other :: rest => if other.name = type.name then type :: rest else other :: insert type rest

end TypeDefinition

namespace DirectiveDefinition

def insert (definition : DirectiveDefinition) : List DirectiveDefinition → List DirectiveDefinition
  | [] => [definition]
  | other :: rest => if other.name = definition.name then definition :: rest else other :: insert definition rest

end DirectiveDefinition

def InputDefinition.find? (inputs : List InputDefinition) (name : String) : Option InputDefinition :=
  inputs.find? (·.name == name)

def FieldDefinition.argument? (field : FieldDefinition) (name : String) : Option InputDefinition :=
  InputDefinition.find? field.arguments name

def DirectiveDefinition.argument? (definition : DirectiveDefinition) (name : String) : Option InputDefinition :=
  InputDefinition.find? definition.arguments name

namespace Schema

def type? (schema : Schema) (name : String) : Option TypeDefinition := TypeDefinition.find? schema.types name

/-- Every composite type has it. -/
def typenameField : FieldDefinition := ⟨"__typename", [], .nonNull (.named "String")⟩

def field? (schema : Schema) (typeName fieldName : String) : Option FieldDefinition :=
  match schema.type? typeName with
  | none => none
  | some type =>
    if fieldName == "__typename" && type.kind.isComposite then some typenameField else type.field? fieldName

def directive? (schema : Schema) (name : String) : Option DirectiveDefinition :=
  schema.directives.find? (·.name == name)

def rootName? (schema : Schema) : OperationKind → Option String
  | .query => some schema.queryType
  | .mutation => schema.mutationType?
  | .subscription => schema.subscriptionType?

def rootType? (schema : Schema) (kind : OperationKind) : Option TypeDefinition :=
  (schema.rootName? kind).bind schema.type?

def isComposite (schema : Schema) (name : String) : Bool :=
  (schema.type? name).any (·.kind.isComposite)

/-- The object types that a value of the named type may have. -/
def possibleTypes (schema : Schema) (name : String) : List String :=
  match schema.type? name with
  | none => []
  | some type =>
    match type.kind with
    | .object => [type.name]
    | .union => type.members
    | .interface =>
      let objects := schema.types.filter fun other => other.kind == .object && other.interfaces.contains name
      sorted (fun a b => decide (a ≤ b)) (objects.map (·.name))
    | _ => []

/-- The types share a possible object type, or are one. -/
def overlap (schema : Schema) (a b : String) : Bool :=
  a == b || (schema.possibleTypes a).any (schema.possibleTypes b).contains

def builtinScalars : List String := ["Int", "Float", "String", "Boolean", "ID"]

def conditionArgument : InputDefinition := ⟨"if", .nonNull (.named "Boolean"), none⟩

def builtinDirectives : List DirectiveDefinition :=
  [⟨"include", [conditionArgument]⟩, ⟨"skip", [conditionArgument]⟩]

/-- Definitions met so far, with the extensions still to be applied. -/
structure Draft where
  types : List TypeDefinition := builtinScalars.map fun name => { name, kind := .scalar }
  directives : List DirectiveDefinition := builtinDirectives
  roots : RootNames := {}
  extensions : List TypeDefinition := []

def Draft.add (draft : Draft) : SystemDefinition → Draft
  | .schema roots => { draft with roots := roots.override draft.roots }
  | .type definition => { draft with types := definition.insert draft.types }
  | .extension additions => { draft with extensions := draft.extensions ++ [additions] }
  | .directive definition => { draft with directives := definition.insert draft.directives }

def applyExtension (types : List TypeDefinition) (additions : TypeDefinition) :
    Except SchemaFault (List TypeDefinition) :=
  match TypeDefinition.find? types additions.name with
  | none => .error (.extendsUnknown additions.name)
  | some type => .ok ((type.extend additions).insert types)

/-- A name that a schema refers to, and by what. -/
structure Mention where
  name : String
  owner : String

namespace Mention

def ofField (typeName : String) (field : FieldDefinition) : List Mention :=
  ⟨field.type.name, s!"{typeName}.{field.name}"⟩ ::
    field.arguments.map fun argument =>
      ⟨argument.type.name, s!"{typeName}.{field.name}({argument.name}:)"⟩

def ofType (type : TypeDefinition) : List Mention :=
  type.fields.flatMap (ofField type.name)
    ++ type.inputFields.map (fun field => ⟨field.type.name, s!"{type.name}.{field.name}"⟩)
    ++ (type.members ++ type.interfaces).map (⟨·, type.name⟩)

end Mention

/-- All names that are looked up when a schema is checked, the root types first. -/
def mentions (schema : Schema) : List Mention :=
  let roots := schema.queryType :: (schema.mutationType?.toList ++ schema.subscriptionType?.toList)
  roots.map (⟨·, "the schema definition"⟩) ++ schema.types.flatMap Mention.ofType

def check (schema : Schema) : Except SchemaFault Schema :=
  match schema.mentions.find? fun mention => (schema.type? mention.name).isNone with
  | some mention => .error (.unknownType mention.name mention.owner)
  | none => .ok schema

def ofDefinitions (definitions : List SystemDefinition) : Except SchemaFault Schema := do
  let draft := definitions.foldl Draft.add {}
  let types ← draft.extensions.foldlM applyExtension draft.types
  let root (declared : Option String) (fallback : String) : Option String :=
    declared <|> ((TypeDefinition.find? types fallback).map fun _ => fallback)
  match root draft.roots.query? "Query" with
  | none => .error .noQueryRoot
  | some queryType =>
    check ⟨types, draft.directives, queryType, root draft.roots.mutation? "Mutation",
      root draft.roots.subscription? "Subscription"⟩

end Schema

inductive SchemaError where
  | unreadable (path reason : String)
  | ungrammatical (detail : ReadError)
  | invalid (fault : SchemaFault)
deriving DecidableEq, Repr

namespace SchemaError

def expectation : String :=
  "Expected the schema to be a .graphql file using the GraphQL schema definition language. "

def message : SchemaError → String
  | unreadable path reason =>
    "Error loading schema from \x60" ++ path ++ "\x60. " ++ expectation ++ "Error detail:\n" ++ reason
  | ungrammatical detail => "Error loading schema. " ++ expectation ++ "Error detail:\n" ++ detail.message
  | invalid fault => "Invalid schema: " ++ fault.message

end SchemaError

def Schema.parse (text : String) : Except SchemaError Schema :=
  match SystemDefinition.parse text with
  | .error detail => .error (.ungrammatical detail)
  | .ok definitions =>
    match Schema.ofDefinitions definitions with
    | .error fault => .error (.invalid fault)
    | .ok schema => .ok schema

end SiteQuery.Graphql
