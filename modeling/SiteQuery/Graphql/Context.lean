import SiteQuery.Graphql.Node.Basic
import SiteQuery.Graphql.Violation

/-!
All definitions of a project, in the order they were added, under distinct names.

`Context.reachable` gives a root and what it reaches through spreads: nodes are taken from the front of a
queue, and what they spread leaves the nodes not yet seen for the back of the queue.
-/

namespace SiteQuery.Graphql

structure Context where
  nodes : List Node := []
deriving Repr, Inhabited

namespace Context

def get? (context : Context) (name : String) : Option Node := context.nodes.find? (·.name == name)

def fragment? (context : Context) (name : String) : Option Fragment := (context.get? name).bind Node.fragment?

/-- A second definition of a name is refused. -/
def add (context : Context) (node : Node) : Except Violation Context :=
  match context.get? node.name with
  | some _ => .error ⟨.duplicateDefinition node.name, none⟩
  | none => .ok ⟨context.nodes ++ [node]⟩

def map (context : Context) (f : Node → Node) : Context := ⟨context.nodes.map f⟩

/-- The spreads of fragments that are defined nowhere, each with the definition that it stands in. -/
def unknownFragments (context : Context) : List (String × Violation) :=
  context.nodes.flatMap fun node =>
    (node.spreads.filter fun name => (context.fragment? name).isNone).map fun name =>
      (node.name, ⟨.unknownFragment name node.name, none⟩)

/-- Nodes that wait in a queue, and those that no spread has reached. -/
structure Frontier where
  unseen : List Node
  queue : List Node

namespace Frontier

def size (frontier : Frontier) : Nat := frontier.unseen.length + frontier.queue.length

/-- The node of a name goes to the back of the queue, the first time. -/
def reach (frontier : Frontier) (name : String) : Frontier :=
  match frontier.unseen.find? (·.name == name) with
  | some node => ⟨frontier.unseen.eraseP (·.name == name), frontier.queue ++ [node]⟩
  | none => frontier

theorem size_reach (frontier : Frontier) (name : String) : (frontier.reach name).size = frontier.size := by
  unfold reach
  split
  · rename_i node found
    have member := List.mem_of_find?_eq_some found
    have named := List.find?_some found
    have := List.length_eraseP_of_mem (p := (·.name == name)) member named
    have := List.length_pos_of_mem member
    simp only [size, List.length_append, List.length_cons, List.length_nil]
    omega
  · rfl

theorem size_foldl_reach (names : List String) (frontier : Frontier) :
    (names.foldl reach frontier).size = frontier.size := by
  induction names generalizing frontier with
  | nil => rfl
  | cons name rest ih => simp [ih, size_reach]

/-- All nodes of the queue and all that they reach, in the order of their turn. -/
def collect (frontier : Frontier) : List Node :=
  match _waiting : frontier.queue with
  | [] => []
  | node :: rest => node :: collect (node.spreads.foldl reach ⟨frontier.unseen, rest⟩)
termination_by frontier.size
decreasing_by
  rw [size_foldl_reach]
  simp only [size, _waiting, List.length_cons]
  omega

end Frontier

/-- The root of a name, first, and every node that it reaches. -/
def reachable (context : Context) (name : String) : Option (List Node) :=
  match context.get? name with
  | some (.root root) =>
    some (Frontier.collect ⟨context.nodes.filter (·.name != name), [.root root]⟩)
  | _ => none

end Context

end SiteQuery.Graphql
