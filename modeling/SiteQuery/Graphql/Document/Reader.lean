import SiteQuery.Graphql.Grammar
import SiteQuery.Graphql.ReadError
import SiteQuery.Sorting
import SiteQuery.Text.Escaped

/-!
Documents from text: the tree of the grammar becomes a `Document`.

`Document.parse` accepts a text of fragments alone. Errors are found in the order of the text, and errors of
the document as a whole come after all others.
-/

namespace SiteQuery.Graphql

open Grammar

abbrev SyntaxTree := Grammar.SyntaxTree Rule

abbrev Read := Except ReadError

/-- From the number of characters left to the place in the text. -/
abbrev Places := Nat → Position

def Places.ofText (text : List Char) : Places :=
  let table := (Position.table .start text).toArray
  fun left => table.getD (text.length - left) .start

namespace Document

def ungrammaticalAt (text : List Char) (left : Nat) : ReadError :=
  let before := text.take (text.length - left)
  let line := (before.reverse.takeWhile (· != '\n')).reverse ++ (text.drop before.length).takeWhile (· != '\n')
  .ungrammatical (Position.ofPrecedingText before .start) (String.ofList (line.filter (· != '\r')))

def treesOf (rule : Rule) (text : List Char) : Read (List SyntaxTree) :=
  match grammar.parse rule text with
  | .ok trees => .ok trees
  | .error left => .error (ungrammaticalAt text left)

def nameOf : SyntaxTree → String
  | .token _ _ text => String.ofList text
  | .branch _ _ _ (.token _ _ text :: _) => String.ofList text
  | .branch _ _ _ _ => ""

def kindOf (text : List Char) : OperationKind :=
  if text = "mutation".toList then .mutation
  else if text = "subscription".toList then .subscription
  else .query

mutual

def readValue (places : Places) : SyntaxTree → Read Value
  | .token .number left text =>
    match Number.ofLiteral? text with
    | some number => .ok (.number number)
    | none => .error (.numberTooLarge (places left))
  | .token .boolean _ text => .ok (.boolean (text == "true".toList))
  | .branch .variableName _ _ (name :: _) => .ok (.reference (nameOf name))
  | .branch .string _ _ [.token .blockStringContent _ text] => .ok (.string (String.ofList (Escaped.block text)))
  | .branch .string _ _ [.token _ _ text] => .ok (.string (String.ofList (Escaped.decode text)))
  | .branch .enumValue _ _ (name :: _) => .ok (.enum (nameOf name))
  | .branch .list _ _ items => .list <$> readItems places items
  | .branch .constList _ _ items => .list <$> readItems places items
  | .branch .object _ _ fields => .object <$> readFields places [] fields
  | .branch .constObject _ _ fields => .object <$> readFields places [] fields
  | _ => .ok .null

def readItems (places : Places) : List SyntaxTree → Read (List Value)
  | [] => .ok []
  | item :: rest => do
    let value ← readValue places item
    return value :: (← readItems places rest)

def readFields (places : Places) (seen : List (String × Value)) : List SyntaxTree → Read (List (String × Value))
  | .branch _ _ _ [key, item] :: rest => do
    let value ← readValue places item
    readFields places (Value.insertField (nameOf key) value seen) rest
  | _ :: rest => readFields places seen rest
  | [] => .ok seen

end

def readArguments (places : Places) : List SyntaxTree → Read (List Argument)
  | .branch _ _ _ [name, item] :: rest => do
    let value ← readValue places item
    let others ← readArguments places rest
    return ⟨nameOf name, places name.left, value, places item.left⟩ :: others
  | _ :: rest => readArguments places rest
  | [] => .ok []

def readDirective (places : Places) : List SyntaxTree → Read Directive
  | name :: arguments => do return ⟨nameOf name, ← readArguments places arguments⟩
  | [] => .ok ⟨"", []⟩

/-- The parts of a variable definition, in any order. -/
def readVariable (places : Places) : Variable → List SyntaxTree → Read Variable
  | done, [] => .ok done
  | done, .branch .variableName _ _ [name] :: rest =>
    readVariable places { done with name := nameOf name } rest
  | done, .token .typeText left text :: rest =>
    readVariable places { done with type := .ofText text, typePosition := places left } rest
  | done, .branch .directive _ _ parts :: rest => do
    let directive ← readDirective places parts
    readVariable places { done with directives := done.directives ++ [directive] } rest
  | done, tree :: rest => do
    let value ← readValue places tree
    readVariable places { done with default? := some ⟨value, places tree.left⟩ } rest

/-- What the parts of a field, a fragment or an operation say; each kind uses its share. -/
structure Parts where
  names : List String := []
  alias? : Option String := none
  kind : OperationKind := .query
  variableDefinitions : List Variable := []
  condition? : Option Condition := none
  arguments : List Argument := []
  directives : List Directive := []
  bodyPosition : Position := .start
  selections : List Selection := []

def Parts.name (parts : Parts) : String := parts.names.headD ""

mutual

/-- A selection, where `depth` more levels of sets are allowed within it; none for any other tree. -/
def readSelection (places : Places) (depth : Nat) : SyntaxTree → Read (Option Selection)
  | .branch .field left _ inner => do
    let p ← readParts places depth {} inner
    return some (.field (places left) p.alias? p.name p.arguments p.directives p.bodyPosition p.selections)
  | .branch .inlineFragment left _ inner => do
    let p ← readParts places depth {} inner
    return some (.inline (places left) p.condition? p.directives p.selections)
  | .branch .fragmentSpread left _ inner => do
    let p ← readParts places depth {} inner
    return some (.spread (places left) p.name p.directives)
  | _ => .ok none

/-- The selections of a set, where `depth` more levels of sets are allowed within it. -/
def readSelections (places : Places) (depth : Nat) : List SyntaxTree → Read (List Selection)
  | [] => .ok []
  | tree :: rest => do
    let selection? ← readSelection places depth tree
    return selection?.toList ++ (← readSelections places depth rest)

/-- The parts with what one more tree says. -/
def readPart (places : Places) (depth : Nat) (parts : Parts) : SyntaxTree → Read Parts
  | .branch .selectionSet left _ items =>
    match depth with
    | 0 => .error .recursionLimitExceeded
    | depth + 1 => do
      let selections ← readSelections places depth items
      return { parts with selections, bodyPosition := places left }
  | .branch .fieldAlias _ _ (name :: _) => .ok { parts with alias? := some (nameOf name) }
  | .branch .typeCondition _ _ (name :: _) =>
    .ok { parts with condition? := some ⟨nameOf name, places name.left⟩ }
  | .branch .argument _ _ [name, item] => do
    let value ← readValue places item
    let argument : Argument := ⟨nameOf name, places name.left, value, places item.left⟩
    return { parts with arguments := parts.arguments ++ [argument] }
  | .branch .directive _ _ inner => do
    let directive ← readDirective places inner
    return { parts with directives := parts.directives ++ [directive] }
  | .branch .variableDefinition _ _ inner => do
    let definition ← readVariable places ⟨"", .named "", .start, none, []⟩ inner
    return { parts with variableDefinitions := parts.variableDefinitions ++ [definition] }
  | .token .operationType _ text => .ok { parts with kind := kindOf text }
  | .token .name _ text => .ok { parts with names := parts.names ++ [String.ofList text] }
  | _ => .ok parts

def readParts (places : Places) (depth : Nat) : Parts → List SyntaxTree → Read Parts
  | parts, [] => .ok parts
  | parts, tree :: rest => do
    let parts ← readPart places depth parts tree
    readParts places depth parts rest

end

/-- How many levels of selection sets a definition may have, its own one included. -/
def maximalDepth : Nat := 65

def readDefinition (places : Places) : SyntaxTree → Read (Option Definition)
  | .branch .namedOperation left _ parts => do
    let p ← readParts places maximalDepth {} parts
    let name? := p.names.head?
    return some (.operation ⟨places left, name?, p.kind, p.variableDefinitions, p.directives, p.selections⟩)
  | tree@(.branch .selectionSet left _ _) => do
    let p ← readParts places maximalDepth {} [tree]
    return some (.operation ⟨places left, none, .query, [], [], p.selections⟩)
  | .branch .fragmentDefinition left _ parts => do
    let p ← readParts places maximalDepth {} parts
    return some (.fragment ⟨places left, p.name, p.condition?.getD ⟨"", .start⟩, p.directives, p.selections⟩)
  | _ => .ok none

/-- Operations and fragments met so far, the latest first. -/
structure Collected where
  operations : List Operation := []
  fragments : List Fragment := []

namespace Collected

/-- An anonymous operation stands alone, and names are unique among operations. -/
def addOperation (collected : Collected) (operation : Operation) : Read Collected :=
  let keep : Read Collected := .ok { collected with operations := operation :: collected.operations }
  match operation.name?, collected.operations.getLast? with
  | _, none => keep
  | none, some first => .error (.multipleOperations operation.position first.position)
  | some name, some first =>
    if first.name?.isNone then .error (.multipleOperations first.position operation.position)
    else
      match collected.operations.find? (·.name? == some name) with
      | some earlier => .error (.operationDuplicated name earlier.position operation.position)
      | none => keep

def addFragment (collected : Collected) (fragment : Fragment) : Read Collected :=
  match collected.fragments.find? (·.name == fragment.name) with
  | some earlier => .error (.fragmentDuplicated fragment.name earlier.position fragment.position)
  | none => .ok { collected with fragments := fragment :: collected.fragments }

def add (collected : Collected) : Definition → Read Collected
  | .operation o => collected.addOperation o
  | .fragment f => collected.addFragment f

def definitions (collected : Collected) : List Definition :=
  collected.operations.reverse.map .operation ++ collected.fragments.reverse.map .fragment

end Collected

/-- A text with at least one operation. -/
def parseOperations (text : List Char) : Read (List Definition) := do
  let trees ← treesOf .executableDocument text
  let definitions ← trees.mapM (readDefinition (.ofText text))
  let collected ← (definitions.filterMap id).foldlM Collected.add {}
  if collected.operations.isEmpty then .error .missingOperation else .ok collected.definitions

/-- The name of the operation that is lent to a text of fragments alone. -/
def hostName : String := "__FragmentHost"

def hostText : String := "\nquery " ++ hostName ++ " \x7b __typename \x7d\n"

def inOrder (definitions : List Definition) : Document :=
  ⟨sorted (fun a b => a.position.le b.position) definitions⟩

def isHost : Definition → Bool
  | .operation o => o.name? == some hostName
  | .fragment _ => false

def parse (text : String) : Read Document :=
  match parseOperations text.toList with
  | .ok definitions => .ok (inOrder definitions)
  | .error .missingOperation => do
    let definitions ← parseOperations (text ++ hostText).toList
    return inOrder (definitions.filter (!isHost ·))
  | .error other => .error other

end Document

end SiteQuery.Graphql
