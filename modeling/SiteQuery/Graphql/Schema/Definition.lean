import SiteQuery.Graphql.Document.Reader

/-!
Definitions of a type system, as they are written.

Only what a schema keeps is read: names, kinds, fields, arguments, defaults and the types that they refer to.
Directives on definitions and descriptions are read for their errors alone.
-/

namespace SiteQuery.Graphql

structure InputDefinition where
  name : String
  type : TypeReference
  default? : Option Value
deriving Repr, Inhabited

structure FieldDefinition where
  name : String
  arguments : List InputDefinition
  type : TypeReference
deriving Repr, Inhabited

inductive TypeKind where
  | scalar
  | object
  | interface
  | union
  | enum
  | inputObject
deriving DecidableEq, Repr, Inhabited

namespace TypeKind

def isComposite : TypeKind → Bool
  | object | interface | union => true
  | _ => false

def isLeaf : TypeKind → Bool
  | scalar | enum => true
  | _ => false

def isInput : TypeKind → Bool
  | scalar | enum | inputObject => true
  | _ => false

end TypeKind

/-- A type with all that is known of it; each kind uses its share. -/
structure TypeDefinition where
  name : String
  kind : TypeKind
  fields : List FieldDefinition := []
  inputFields : List InputDefinition := []
  enumValues : List String := []
  members : List String := []
  interfaces : List String := []
deriving Repr, Inhabited

structure DirectiveDefinition where
  name : String
  arguments : List InputDefinition
deriving Repr, Inhabited

structure RootNames where
  query? : Option String := none
  mutation? : Option String := none
  subscription? : Option String := none
deriving Repr, Inhabited

namespace RootNames

def get? (roots : RootNames) : OperationKind → Option String
  | .query => roots.query?
  | .mutation => roots.mutation?
  | .subscription => roots.subscription?

def set (roots : RootNames) (kind : OperationKind) (name : String) : RootNames :=
  match kind with
  | .query => { roots with query? := some name }
  | .mutation => { roots with mutation? := some name }
  | .subscription => { roots with subscription? := some name }

/-- Names that are given here win. -/
def override (later earlier : RootNames) : RootNames :=
  ⟨later.query? <|> earlier.query?, later.mutation? <|> earlier.mutation?,
    later.subscription? <|> earlier.subscription?⟩

end RootNames

inductive SystemDefinition where
  | schema (roots : RootNames)
  | type (definition : TypeDefinition)
  | extension (additions : TypeDefinition)
  | directive (definition : DirectiveDefinition)
deriving Repr, Inhabited

namespace SystemDefinition

def readDirectives (places : Places) : List SyntaxTree → Read Unit
  | .branch .constDirective _ _ parts :: rest => do
    let _ ← Document.readDirective places parts
    readDirectives places rest
  | _ :: rest => readDirectives places rest
  | [] => .ok ()

/-- The parts of an input value; descriptions are no defaults. -/
def readInput (places : Places) : InputDefinition → List SyntaxTree → Read InputDefinition
  | done, [] => .ok done
  | done, .token .name _ text :: rest => readInput places { done with name := String.ofList text } rest
  | done, .token .typeText _ text :: rest => readInput places { done with type := .ofText text } rest
  | done, .branch .constDirective _ _ parts :: rest => do
    let _ ← Document.readDirective places parts
    readInput places done rest
  | done, tree :: rest => do
    let value ← Document.readValue places tree
    readInput places { done with default? := if done.name.isEmpty then none else some value } rest

def readInputs (places : Places) : List SyntaxTree → Read (List InputDefinition)
  | .branch .inputValueDefinition _ _ parts :: rest => do
    let input ← readInput places ⟨"", .named "", none⟩ parts
    return input :: (← readInputs places rest)
  | _ :: rest => readInputs places rest
  | [] => .ok []

def readField (places : Places) : FieldDefinition → List SyntaxTree → Read FieldDefinition
  | done, [] => .ok done
  | done, .token .name _ text :: rest => readField places { done with name := String.ofList text } rest
  | done, .token .typeText _ text :: rest => readField places { done with type := .ofText text } rest
  | done, .branch .argumentsDefinition _ _ parts :: rest => do
    readField places { done with arguments := ← readInputs places parts } rest
  | done, .branch .constDirective _ _ parts :: rest => do
    let _ ← Document.readDirective places parts
    readField places done rest
  | done, _ :: rest => readField places done rest

def namesOf (trees : List SyntaxTree) : List String := trees.map Document.nameOf

/-- The parts of a type definition or an extension. -/
def readType (places : Places) : TypeDefinition → List SyntaxTree → Read TypeDefinition
  | done, [] => .ok done
  | done, .token .name _ text :: rest => readType places { done with name := String.ofList text } rest
  | done, .branch .constDirective _ _ parts :: rest => do
    let _ ← Document.readDirective places parts
    readType places done rest
  | done, .branch .implementsInterfaces _ _ names :: rest =>
    readType places { done with interfaces := namesOf names } rest
  | done, .branch .unionMembers _ _ names :: rest =>
    readType places { done with members := namesOf names } rest
  | done, .branch .fieldDefinition _ _ parts :: rest => do
    let field ← readField places ⟨"", [], .named ""⟩ parts
    readType places { done with fields := done.fields ++ [field] } rest
  | done, .branch .inputValueDefinition _ _ parts :: rest => do
    let input ← readInput places ⟨"", .named "", none⟩ parts
    readType places { done with inputFields := done.inputFields ++ [input] } rest
  | done, .branch .enumValueDefinition _ _ parts :: rest => do
    let () ← readDirectives places parts
    let values := parts.filter fun tree => tree.rule == .enumValue
    readType places { done with enumValues := done.enumValues ++ namesOf values } rest
  | done, _ :: rest => readType places done rest

/-- The root types of a schema block that stands at `block`; each kind is named at most once. -/
def readRoots (places : Places) (block : Position) : RootNames → List SyntaxTree → Read RootNames
  | roots, .branch .operationTypeDefinition _ _ [kind@(.token _ left text), name] :: rest =>
    let root := Document.kindOf text
    match roots.get? root, kind with
    | none, _ => readRoots places block (roots.set root (Document.nameOf name)) rest
    | some _, _ => .error (.multipleRoots root block (places left))
  | roots, _ :: rest => readRoots places block roots rest
  | roots, [] => .ok roots

def isExtension (parts : List SyntaxTree) : Bool := parts.any fun tree => tree.rule == .extend

def readTypeOf (places : Places) (kind : TypeKind) (parts : List SyntaxTree) : Read SystemDefinition := do
  let definition ← readType places { name := "", kind } parts
  return if isExtension parts then .extension definition else .type definition

def read (places : Places) : SyntaxTree → Read (Option SystemDefinition)
  | .branch .schemaDefinition left _ parts => do
    let () ← readDirectives places parts
    let roots ← readRoots places (places left) {} parts
    if !isExtension parts && roots.query?.isNone then .error (.missingQueryRoot (places left))
    else return some (.schema roots)
  | .branch .scalarType _ _ parts => some <$> readTypeOf places .scalar parts
  | .branch .objectType _ _ parts => some <$> readTypeOf places .object parts
  | .branch .interfaceType _ _ parts => some <$> readTypeOf places .interface parts
  | .branch .unionType _ _ parts => some <$> readTypeOf places .union parts
  | .branch .enumType _ _ parts => some <$> readTypeOf places .enum parts
  | .branch .inputObjectType _ _ parts => some <$> readTypeOf places .inputObject parts
  | .branch .directiveDefinition _ _ parts => do
    let field ← readField places ⟨"", [], .named ""⟩ parts
    return some (.directive ⟨field.name, field.arguments⟩)
  | _ => .ok none

def parse (text : String) : Read (List SystemDefinition) := do
  let trees ← Document.treesOf .serviceDocument text.toList
  let definitions ← trees.mapM (read (.ofText text.toList))
  return definitions.filterMap id

end SystemDefinition

end SiteQuery.Graphql
