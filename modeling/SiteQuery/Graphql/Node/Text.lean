import SiteQuery.Graphql.Context

/-!
The text of definitions, in one fixed layout.
-/

namespace SiteQuery.Graphql

def indent (depth : Nat) : String := String.ofList (List.replicate (2 * depth) ' ')

/-- Nothing for no items. -/
def parenthesized (items : List String) : String :=
  if items.isEmpty then "" else "(" ++ ", ".intercalate items ++ ")"

def Argument.text (argument : Argument) : String := argument.name ++ ": " ++ argument.value.text

def Argument.listText (arguments : List Argument) : String := parenthesized (arguments.map Argument.text)

def Directive.text (directive : Directive) : String :=
  " @" ++ directive.name ++ Argument.listText directive.arguments

def Directive.listText (directives : List Directive) : String := String.join (directives.map Directive.text)

def Variable.text (definition : Variable) : String :=
  "$" ++ definition.name ++ ": " ++ definition.type.text
    ++ (match definition.default? with
      | some value => " = " ++ value.text
      | none => "")
    ++ Directive.listText definition.directives

namespace Selection

mutual

def text (depth : Nat) : Selection → String
  | field alias? name arguments directives _ selections =>
    (match alias? with
      | some key => key ++ ": "
      | none => "")
      ++ name ++ Argument.listText arguments ++ Directive.listText directives ++ bodyText depth selections
  | spread name directives => "..." ++ name ++ Directive.listText directives
  | inline condition? directives selections =>
    "..." ++ (match condition? with
      | some type => " on " ++ type
      | none => "")
      ++ Directive.listText directives ++ bodyText depth selections

/-- Selections between braces, one a line; nothing for none. -/
def bodyText (depth : Nat) : List Selection → String
  | [] => ""
  | selection :: rest =>
    " \x7b\n" ++ indent (depth + 1) ++ text (depth + 1) selection ++ "\n" ++ lines depth rest
      ++ indent depth ++ "\x7d"

def lines (depth : Nat) : List Selection → String
  | [] => ""
  | selection :: rest => indent (depth + 1) ++ text (depth + 1) selection ++ "\n" ++ lines depth rest

end

end Selection

namespace Node

def text : Node → String
  | root r =>
    r.kind.keyword ++ " " ++ r.name ++ parenthesized (r.variableDefinitions.map Variable.text)
      ++ Directive.listText r.directives ++ Selection.bodyText 0 r.selections ++ "\n"
  | fragment f =>
    "fragment " ++ f.name ++ " on " ++ f.condition ++ Directive.listText f.directives
      ++ Selection.bodyText 0 f.selections ++ "\n"

end Node

namespace Context

/-- A root and all that it reaches, with an empty line between two definitions. -/
def rootText? (context : Context) (name : String) : Option String :=
  (context.reachable name).map fun nodes => "\n".intercalate (nodes.map Node.text)

end Context

end SiteQuery.Graphql
