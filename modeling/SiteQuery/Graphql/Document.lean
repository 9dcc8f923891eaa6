import SiteQuery.Graphql.TypeReference
import SiteQuery.Graphql.Value
import SiteQuery.Text.Position

/-!
Documents as they are written, with the places of their parts.
-/

namespace SiteQuery.Graphql

inductive OperationKind where
  | query
  | mutation
  | subscription
deriving DecidableEq, Repr, Inhabited

def OperationKind.keyword : OperationKind → String
  | query => "query"
  | mutation => "mutation"
  | subscription => "subscription"

namespace Document

structure Argument where
  name : String
  namePosition : Position
  value : Value
  valuePosition : Position
deriving Repr, Inhabited

structure Directive where
  name : String
  arguments : List Argument
deriving Repr, Inhabited

structure Default where
  value : Value
  position : Position
deriving Repr, Inhabited

structure Variable where
  name : String
  type : TypeReference
  typePosition : Position
  default? : Option Default
  directives : List Directive
deriving Repr, Inhabited

structure Condition where
  name : String
  position : Position
deriving Repr, Inhabited

inductive Selection where
  | field (position : Position) (alias? : Option String) (name : String) (arguments : List Argument)
      (directives : List Directive) (bodyPosition : Position) (selections : List Selection)
  | spread (position : Position) (name : String) (directives : List Directive)
  | inline (position : Position) (condition? : Option Condition) (directives : List Directive)
      (selections : List Selection)
deriving Repr, Inhabited

structure Operation where
  position : Position
  name? : Option String
  kind : OperationKind
  variableDefinitions : List Variable
  directives : List Directive
  selections : List Selection
deriving Repr, Inhabited

structure Fragment where
  position : Position
  name : String
  condition : Condition
  directives : List Directive
  selections : List Selection
deriving Repr, Inhabited

inductive Definition where
  | operation (operation : Operation)
  | fragment (fragment : Fragment)
deriving Repr, Inhabited

namespace Definition

def name? : Definition → Option String
  | operation o => o.name?
  | fragment f => some f.name

def position : Definition → Position
  | operation o => o.position
  | fragment f => f.position

def isOperation : Definition → Bool
  | operation _ => true
  | fragment _ => false

end Definition

end Document

/-- Operations and fragments in the order of the text. -/
structure Document where
  definitions : List Document.Definition
deriving Repr, Inhabited

namespace Document

def first? (document : Document) : Option Definition := document.definitions.head?

def operationCount (document : Document) : Nat := document.definitions.countP Definition.isOperation

def fragments (document : Document) : List Fragment :=
  document.definitions.filterMap fun
    | .fragment f => some f
    | .operation _ => none

end Document

end SiteQuery.Graphql
