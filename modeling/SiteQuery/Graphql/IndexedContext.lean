import SiteQuery.Graphql.Selection.Normal

/-!
Contexts with an index, which tells where the node of a name stands.

A node is found through the index alone. The index and the nodes change one after the other, so a look-up may lead
behind the last node unless they fit together. Without the index, such a context is a `Context`.
-/

namespace SiteQuery.Graphql

namespace Node

/-- Without superfluous inline fragments. -/
def flattened (node : Node) : Node := node.withSelections (Selection.flattenAll node.type node.selections)

/-- Without repeated selections. -/
def merged (node : Node) : Node := node.withSelections (Selection.merge node.selections)

end Node

structure IndexedContext where
  nodes : List Node := []
  /-- From a name to its place among the nodes. -/
  index : List (String × Nat) := []
deriving Repr, Inhabited

namespace IndexedContext

def withoutIndex (context : IndexedContext) : Context := ⟨context.nodes⟩

/-- What the index leads to, if it knows the name: the node at the place, or nothing behind the last node. -/
def lookup (context : IndexedContext) (name : String) : Option (Option Node) :=
  (context.index.lookup name).map fun place => context.nodes[place]?

def get? (context : IndexedContext) (name : String) : Option Node := (context.lookup name).join

/-- A second definition of a name is refused. The index learns the name before the node is there. -/
def add (node : Node) : ExceptT Violation (StateM IndexedContext) Unit := do
  if ((← get).index.lookup node.name).isSome then
    throw ⟨.duplicateDefinition node.name, none⟩
  modify fun context => { context with index := (node.name, context.nodes.length) :: context.index }
  modify fun context => { context with nodes := context.nodes ++ [node] }

/-- The answer to a definition that is added, and the context afterwards. -/
def tryAdd (context : IndexedContext) (node : Node) : Except Violation Unit × IndexedContext := (add node).run.run context

/-- The index stays as it is. -/
def map (context : IndexedContext) (f : Node → Node) : IndexedContext := { context with nodes := context.nodes.map f }

def flatten (context : IndexedContext) : IndexedContext := context.map Node.flattened

def merge (context : IndexedContext) : IndexedContext := context.map Node.merged

/-- The form in which definitions are printed. -/
def normalize (context : IndexedContext) : IndexedContext := context.flatten.merge

end IndexedContext

end SiteQuery.Graphql
