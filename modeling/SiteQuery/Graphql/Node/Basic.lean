import SiteQuery.Graphql.Selection.Basic

/-!
Typed definitions: named operations, the roots, and fragments.
-/

namespace SiteQuery.Graphql

structure Variable where
  name : String
  type : TypeReference
  default? : Option Value
  directives : List Directive
deriving Repr, Inhabited

structure Root where
  name : String
  kind : OperationKind
  type : String
  variableDefinitions : List Variable
  directives : List Directive
  selections : List Selection
deriving Repr, Inhabited

structure Fragment where
  name : String
  condition : String
  directives : List Directive
  selections : List Selection
deriving Repr, Inhabited

inductive Node where
  | root (root : Root)
  | fragment (fragment : Fragment)
deriving Repr, Inhabited

namespace Node

def name : Node → String
  | root r => r.name
  | fragment f => f.name

/-- The type that the node's selections apply to. -/
def type : Node → String
  | root r => r.type
  | fragment f => f.condition

def selections : Node → List Selection
  | root r => r.selections
  | fragment f => f.selections

def withSelections (node : Node) (selections : List Selection) : Node :=
  match node with
  | root r => root { r with selections }
  | fragment f => fragment { f with selections }

def isRoot : Node → Bool
  | root _ => true
  | fragment _ => false

def fragment? : Node → Option Fragment
  | root _ => none
  | fragment f => some f

/-- The fragments that are spread anywhere in the node, each once, in order. -/
def spreads (node : Node) : List String := (Selection.spreadsIn node.selections).eraseDups

@[simp] theorem name_withSelections (node : Node) (selections : List Selection) :
    (node.withSelections selections).name = node.name := by
  cases node <;> rfl

@[simp] theorem selections_withSelections (node : Node) (selections : List Selection) :
    (node.withSelections selections).selections = selections := by
  cases node <;> rfl

end Node

end SiteQuery.Graphql
